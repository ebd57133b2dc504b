import Mathlib.Algebra.BigOperators.Group.Finset.Piecewise
import Sylar.Proofs.IOManager.Effects

/-! # Every registration is consumed at most once and never lost

The ledger of a run numbers the successful `addEvent` calls and keeps, from the calls and their results
alone, which of them waits in each slot, which a `delEvent` has taken out and which a `cancelEvent`, a
`cancelAll` or a dispatch has. The numbers make registrations that use one slot one after the other
distinct, so that a second hand-off of one of them would show.
-/

namespace Sylar.IOManager

variable {m t : IOManager} {fd i : ℕ} {event : Event} {q : Event → Bool} {label : Request × Bool}

/-- A successful `addEvent`. -/
structure Registration where
  fd : ℕ
  event : Event
  cb : Option Callback
  caller : Caller
deriving DecidableEq, Repr

/-- The task it should give and the scheduler it should give it to. -/
def Registration.handoff (r : Registration) : Handoff := handoffOf r.cb r.caller

/-- What has become of the registrations; a registration is named by its position. -/
structure Ledger where
  registrations : List Registration := []
  waiting : ℕ → Event → Option ℕ := fun _ _ => none
  deleted : List ℕ := []
  triggered : List ℕ := []

namespace Ledger

variable {l : Ledger}

def handoff (l : Ledger) (i : ℕ) : Option Handoff := l.registrations[i]?.map Registration.handoff

/-- The registration waits in its slot. -/
def isPending (l : Ledger) (i : ℕ) : Bool :=
  l.registrations[i]?.any fun r => l.waiting r.fd r.event == some i

/-- The registrations of a set of events on a descriptor, in the order in which events are triggered. -/
def taken (q : Event → Bool) (fd : ℕ) (l : Ledger) : List ℕ :=
  Event.all.flatMap fun event => if q event then (l.waiting fd event).toList else []

def clear (q : Event → Bool) (fd : ℕ) (l : Ledger) : Ledger :=
  { l with waiting := fun other event => if other = fd ∧ q event then none else l.waiting other event }

def add (r : Registration) (l : Ledger) : Ledger :=
  { l with
    registrations := l.registrations ++ [r]
    waiting := fun fd event =>
      if fd = r.fd ∧ event = r.event then some l.registrations.length else l.waiting fd event }

def delete (q : Event → Bool) (fd : ℕ) (l : Ledger) : Ledger :=
  { l.clear q fd with deleted := l.deleted ++ l.taken q fd }

def trigger (q : Event → Bool) (fd : ℕ) (l : Ledger) : Ledger :=
  { l.clear q fd with triggered := l.triggered ++ l.taken q fd }

/-- What a call with this result does to the registrations. -/
def record (l : Ledger) : Request × Bool → Ledger
  | (_, false) => l
  | (.addEvent fd event cb caller _, true) => l.add ⟨fd, event, cb, caller⟩
  | (.delEvent fd event _, true) => l.delete (· == event) fd
  | (.cancelEvent fd event _, true) => l.trigger (· == event) fd
  | (.cancelAll fd _, true) => l.trigger (fun _ => true) fd
  | (.dispatch fd report _, true) => l.trigger (reported report) fd

/-- The ledger of a run. -/
def ofRun (labels : List (Request × Bool)) : Ledger := labels.foldl record {}

/-- A registration waits in no slot but its own. -/
def Placed (l : Ledger) : Prop :=
  ∀ fd event i, l.waiting fd event = some i →
    ∃ r, l.registrations[i]? = some r ∧ r.fd = fd ∧ r.event = event

theorem Placed.isPending_iff (placed : Placed l) :
    l.isPending i = true ↔ ∃ fd event, l.waiting fd event = some i := by
  rw [isPending, Option.any_eq_true]
  simp only [beq_iff_eq]
  constructor
  · rintro ⟨r, -, here⟩
    exact ⟨r.fd, r.event, here⟩
  · rintro ⟨fd, event, here⟩
    obtain ⟨r, found, rfl, rfl⟩ := placed fd event i here
    exact ⟨r, found, here⟩

theorem Placed.clear (placed : Placed l) (q : Event → Bool) (fd : ℕ) : Placed (l.clear q fd) := by
  intro other event i here
  rw [Ledger.clear] at here
  dsimp only at here
  split at here
  · cases here
  · exact placed other event i here

theorem mem_ite_toList {b : Bool} {o : Option ℕ} :
    i ∈ (if b then o.toList else []) ↔ b = true ∧ o = some i := by
  cases b <;> simp

theorem mem_taken : i ∈ l.taken q fd ↔ ∃ event, q event = true ∧ l.waiting fd event = some i := by
  rw [taken, List.mem_flatMap]
  apply exists_congr
  intro event
  rw [mem_ite_toList]
  exact and_iff_right (by cases event <;> decide)

theorem Placed.taken_nodup (placed : Placed l) : (l.taken q fd).Nodup := by
  rw [taken, List.nodup_flatMap]
  constructor
  · intro event _
    split_ifs
    · cases l.waiting fd event <;> simp
    · exact List.nodup_nil
  · have different : Event.all.Pairwise (· ≠ ·) := by decide
    apply different.imp
    intro event event' apart i member member'
    obtain ⟨r, found, -, rfl⟩ := placed fd event i (mem_ite_toList.mp member).2
    obtain ⟨r', found', -, rfl⟩ := placed fd event' i (mem_ite_toList.mp member').2
    cases found.symm.trans found'
    exact apart rfl

/-- Clearing slots makes the registrations taken from them no longer pending, and no others. -/
theorem Placed.count_taken (placed : Placed l) (q : Event → Bool) (fd i : ℕ) :
    ((l.clear q fd).isPending i).toNat + (l.taken q fd).count i = (l.isPending i).toNat := by
  have after : (l.clear q fd).isPending i = true ↔ l.isPending i = true ∧ i ∉ l.taken q fd := by
    rw [(placed.clear q fd).isPending_iff, placed.isPending_iff, mem_taken]
    constructor
    · rintro ⟨other, event, here⟩
      rw [Ledger.clear] at here
      dsimp only at here
      split at here
      · cases here
      next kept =>
      refine ⟨⟨other, event, here⟩, ?_⟩
      rintro ⟨event', inside, here'⟩
      obtain ⟨r, found, rfl, rfl⟩ := placed other event i here
      obtain ⟨r', found', rfl, rfl⟩ := placed fd event' i here'
      cases found.symm.trans found'
      exact kept ⟨rfl, inside⟩
    · rintro ⟨⟨other, event, here⟩, outside⟩
      refine ⟨other, event, ?_⟩
      rw [Ledger.clear]
      dsimp only
      rw [if_neg]
      · exact here
      · rintro ⟨rfl, inside⟩
        exact outside ⟨event, inside, here⟩
  rw [placed.taken_nodup.count]
  by_cases member : i ∈ l.taken q fd
  · obtain ⟨event, -, here⟩ := mem_taken.mp member
    have before : l.isPending i = true := placed.isPending_iff.mpr ⟨fd, event, here⟩
    have gone : (l.clear q fd).isPending i = false :=
      Bool.eq_false_of_not_eq_true fun still => (after.mp still).2 member
    rw [before, gone, if_pos member]
    rfl
  · have same : (l.clear q fd).isPending i = l.isPending i := by
      rw [Bool.eq_iff_iff, after]
      exact and_iff_left member
    rw [same, if_neg member, Nat.add_zero]

end Ledger

/-! ## The ledger balances -/

/-- The ledger accounts for every registration, every slot and every hand-off. -/
structure Balanced (m : IOManager) (l : Ledger) : Prop where
  consistent : Consistent m
  placed : l.Placed
  held : ∀ fd event, m.slot fd event = (l.waiting fd event).bind l.handoff
  once : ∀ i, (l.isPending i).toNat + l.deleted.count i + l.triggered.count i =
    if i < l.registrations.length then 1 else 0
  handed : (m.scheduled.map owned).map some = l.triggered.map l.handoff
  counted : m.scheduled.length + l.deleted.length + m.pendingEventCount = l.registrations.length

/-- The slots without those of a set, and those of the set, are all slots. -/
theorem released_length (q : Event → Bool) (slots : Event → Option Handoff) :
    (released q slots).length + (Event.all.countP fun event => (reset q slots event).isSome) =
      Event.all.countP fun event => (slots event).isSome := by
  simp only [released, reset, Event.all, List.flatMap_cons, List.flatMap_nil, List.countP_cons,
    List.countP_nil, List.length_append, List.length_nil]
  cases q .read <;> cases q .write <;> cases slots .read <;> cases slots .write <;> rfl

namespace Balanced

variable {l : Ledger}

/-- What is handed over is what the registrations taken were to give. -/
theorem released_eq (balanced : Balanced m l) (q : Event → Bool) (fd : ℕ) :
    (released q (m.slot fd)).map some = (l.taken q fd).map l.handoff := by
  rw [released, Ledger.taken, List.map_flatMap, List.map_flatMap]
  congr 1
  funext event
  split_ifs
  · rw [balanced.held]
    cases here : l.waiting fd event with
    | none => rfl
    | some i =>
      obtain ⟨r, found, -⟩ := balanced.placed fd event i here
      have given : l.handoff i = some r.handoff := by rw [Ledger.handoff, found]; rfl
      rw [Option.bind_some, given]
      exact congrArg (fun x => [x]) given.symm
  · rfl

theorem cleared_held (balanced : Balanced m l) (q : Event → Bool) (fd : ℕ) {out : List Handoff}
    (moves : Moves m fd (reset q (m.slot fd)) out t) (other : ℕ) (event : Event) :
    t.slot other event = ((l.clear q fd).waiting other event).bind l.handoff := by
  rw [Ledger.clear]
  dsimp only
  rcases eq_or_ne other fd with rfl | different
  · rw [moves.here, reset, balanced.held]
    cases q event <;> simp
  · rw [moves.elsewhere other different, balanced.held, if_neg (fun both => different both.1)]

/-- Registrations taken without a hand-off. -/
theorem delete (balanced : Balanced m l) (moves : Moves m fd (reset q (m.slot fd)) [] t) :
    Balanced t (l.delete q fd) where
  consistent := moves.consistent
  placed := balanced.placed.clear q fd
  held := balanced.cleared_held q fd moves
  once := by
    intro i
    have taken := balanced.placed.count_taken q fd i
    have before := balanced.once i
    change ((l.clear q fd).isPending i).toNat + (l.deleted ++ l.taken q fd).count i +
      l.triggered.count i = if i < l.registrations.length then 1 else 0
    rw [List.count_append]
    omega
  handed := by
    rw [moves.scheduled, List.append_nil]
    exact balanced.handed
  counted := by
    have lengths := congrArg List.length (balanced.released_eq q fd)
    rw [List.length_map, List.length_map] at lengths
    have split := released_length q (m.slot fd)
    have pending := moves.pending balanced.consistent.core
    have before := balanced.counted
    change t.scheduled.length + (l.deleted ++ l.taken q fd).length + t.pendingEventCount =
      l.registrations.length
    rw [moves.length, List.length_nil, List.length_append]
    change t.pendingEventCount + Event.all.countP (fun event => (m.slot fd event).isSome) = _ at pending
    omega

/-- Registrations taken and handed over. -/
theorem trigger (balanced : Balanced m l)
    (moves : Moves m fd (reset q (m.slot fd)) (released q (m.slot fd)) t) :
    Balanced t (l.trigger q fd) where
  consistent := moves.consistent
  placed := balanced.placed.clear q fd
  held := balanced.cleared_held q fd moves
  once := by
    intro i
    have taken := balanced.placed.count_taken q fd i
    have before := balanced.once i
    change ((l.clear q fd).isPending i).toNat + l.deleted.count i +
      (l.triggered ++ l.taken q fd).count i = if i < l.registrations.length then 1 else 0
    rw [List.count_append]
    omega
  handed := by
    rw [moves.scheduled, List.map_append, balanced.handed, balanced.released_eq]
    exact List.map_append.symm
  counted := by
    have split := released_length q (m.slot fd)
    have pending := moves.pending balanced.consistent.core
    have before := balanced.counted
    change t.scheduled.length + l.deleted.length + t.pendingEventCount = l.registrations.length
    rw [moves.length]
    change t.pendingEventCount + Event.all.countP (fun event => (m.slot fd event).isSome) = _ at pending
    omega

/-- A step without effect leaves the ledger as it is. -/
theorem refuse (balanced : Balanced m l) (unchanged : Unchanged m t) (consistent : Consistent t) :
    Balanced t l where
  consistent := consistent
  placed := balanced.placed
  held := by
    intro fd event
    rw [← balanced.held, slot, slot, unchanged.context]
  once := balanced.once
  handed := by rw [unchanged.scheduled, balanced.handed]
  counted := by rw [unchanged.scheduled, unchanged.pending, balanced.counted]

theorem waiting_none (balanced : Balanced m l) (free : m.slot fd event = none) :
    l.waiting fd event = none := by
  cases here : l.waiting fd event with
  | none => rfl
  | some i =>
    obtain ⟨r, found, -⟩ := balanced.placed fd event i here
    rw [balanced.held, here, Option.bind_some, Ledger.handoff, found] at free
    cases free

/-- Only registrations are deleted or triggered. -/
theorem lt_of_mem (balanced : Balanced m l) (member : i ∈ l.deleted ∨ i ∈ l.triggered) :
    i < l.registrations.length := by
  by_contra past
  have counts := balanced.once i
  rw [if_neg past] at counts
  rcases member with deleted | triggered
  · have positive := List.count_pos_iff.mpr deleted
    omega
  · have positive := List.count_pos_iff.mpr triggered
    omega

/-- The new registration is the last one, and pending. -/
theorem add_once (balanced : Balanced m l) {r : Registration} (free : l.waiting r.fd r.event = none)
    (placed : (l.add r).Placed) (i : ℕ) :
    ((l.add r).isPending i).toNat + l.deleted.count i + l.triggered.count i =
      if i < l.registrations.length + 1 then 1 else 0 := by
  have before := balanced.once i
  rcases eq_or_ne i l.registrations.length with rfl | old
  · have pending : (l.add r).isPending l.registrations.length = true :=
      placed.isPending_iff.mpr ⟨r.fd, r.event, if_pos ⟨rfl, rfl⟩⟩
    rw [if_neg (lt_irrefl _)] at before
    rw [pending, if_pos (Nat.lt_succ_self _), Bool.toNat_true]
    omega
  · have same : (l.add r).isPending i = l.isPending i := by
      rw [Bool.eq_iff_iff, placed.isPending_iff, balanced.placed.isPending_iff]
      apply exists_congr
      intro fd
      apply exists_congr
      intro event
      rw [Ledger.add]
      dsimp only
      split_ifs with own
      · rw [own.1, own.2, free]
        constructor
        · intro last
          exact absurd (Option.some.inj last).symm old
        · rintro ⟨⟩
      · rfl
    rw [same, before]
    split_ifs <;> omega

/-- A registration in a free slot. -/
theorem add (balanced : Balanced m l) {r : Registration} (free : m.slot r.fd r.event = none)
    (moves : Moves m r.fd (Function.update (m.slot r.fd) r.event (some r.handoff)) [] t) :
    Balanced t (l.add r) := by
  have kept {i : ℕ} (inside : i < l.registrations.length) : (l.add r).handoff i = l.handoff i :=
    congrArg (·.map Registration.handoff) (List.getElem?_append_left inside)
  have placed : (l.add r).Placed := by
    intro fd event i here
    rw [Ledger.add] at here ⊢
    dsimp only at here ⊢
    split at here
    next own =>
      cases here
      exact ⟨r, List.getElem?_concat_length, own.1.symm, own.2.symm⟩
    next =>
      obtain ⟨r', found, rest⟩ := balanced.placed fd event i here
      have inside := (List.getElem?_eq_some_iff.mp found).1
      exact ⟨r', (List.getElem?_append_left inside).trans found, rest⟩
  exact {
    consistent := moves.consistent
    placed := placed
    held := by
      intro fd event
      have elsewhere (same : t.slot fd event = m.slot fd event) (apart : ¬ (fd = r.fd ∧ event = r.event)) :
          t.slot fd event = ((l.add r).waiting fd event).bind (l.add r).handoff := by
        have waits : (l.add r).waiting fd event = l.waiting fd event := if_neg apart
        rw [same, balanced.held, waits]
        cases here : l.waiting fd event with
        | none => rfl
        | some i =>
          obtain ⟨r', found, -⟩ := balanced.placed fd event i here
          exact (kept (List.getElem?_eq_some_iff.mp found).1).symm
      rcases eq_or_ne fd r.fd with rfl | different
      · rcases eq_or_ne event r.event with rfl | others
        · have waits : (l.add r).waiting r.fd r.event = some l.registrations.length := if_pos ⟨rfl, rfl⟩
          have last : (l.add r).handoff l.registrations.length = some r.handoff :=
            congrArg (·.map Registration.handoff) List.getElem?_concat_length
          rw [moves.here, Function.update_self, waits, Option.bind_some, last]
        · exact elsewhere (by rw [moves.here, Function.update_of_ne others]) fun own => others own.2
      · exact elsewhere (by rw [moves.elsewhere fd different]) fun own => different own.1
    once := by
      intro i
      have once := balanced.add_once (balanced.waiting_none free) placed i
      rw [Ledger.add] at once ⊢
      rw [List.length_append]
      exact once
    handed := by
      rw [moves.scheduled, List.append_nil, balanced.handed]
      apply List.map_congr_left
      intro i member
      exact (kept (balanced.lt_of_mem (.inr member))).symm
    counted := by
      have pending := moves.pending balanced.consistent.core
      have counted := countP_update (m.registered r.fd) r.event true
      have unset : m.registered r.fd r.event = false := by rw [registered, free]; rfl
      have filled := Function.comp_update Option.isSome (m.slot r.fd) r.event (some r.handoff)
      have before := balanced.counted
      change t.pendingEventCount + _ = m.pendingEventCount + Event.all.countP
        (Option.isSome ∘ Function.update (m.slot r.fd) r.event (some r.handoff)) at pending
      rw [filled] at pending
      change t.pendingEventCount + _ = m.pendingEventCount + Event.all.countP
        (Function.update (m.registered r.fd) r.event true) at pending
      rw [unset, Bool.toNat_false, Bool.toNat_true] at counted
      change t.scheduled.length + l.deleted.length + t.pendingEventCount =
        (l.registrations ++ [r]).length
      rw [moves.length, List.length_nil, List.length_append, List.length_singleton]
      omega }

/-- `cancelAll` takes what is registered, which is whatever there is. -/
theorem trigger_all (balanced : Balanced m l)
    (moves : Moves m fd (reset (m.registered fd) (m.slot fd)) (released (m.registered fd) (m.slot fd)) t) :
    Balanced t (l.trigger (fun _ => true) fd) := by
  have slots : reset (m.registered fd) (m.slot fd) = reset (fun _ => true) (m.slot fd) := by
    funext event
    rw [reset, reset, registered]
    cases m.slot fd event <;> rfl
  have out : released (m.registered fd) (m.slot fd) = released (fun _ => true) (m.slot fd) := by
    rw [released, released]
    congr 1
    funext event
    rw [registered]
    cases m.slot fd event <;> rfl
  rw [slots, out] at moves
  exact balanced.trigger moves

/-- Each step of a run moves registrations as the ledger records it. -/
theorem step (balanced : Balanced m l) (effect : Effect m label t) : Balanced t (l.record label) := by
  cases effect with
  | refused unchanged consistent => exact balanced.refuse unchanged consistent
  | @added fd event cb caller _ _ free moves =>
    exact @balanced.add _ _ _ ⟨fd, event, cb, caller⟩ free moves
  | deleted _ moves => exact balanced.delete moves
  | cancelled _ moves => exact balanced.trigger moves
  | cancelledAll _ moves => exact balanced.trigger_all moves
  | dispatched _ moves => exact balanced.trigger moves

end Balanced

end Sylar.IOManager
