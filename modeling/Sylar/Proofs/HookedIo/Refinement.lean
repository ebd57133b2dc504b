import Sylar.Proofs.DoIo.Returns
import Sylar.Proofs.HookedIo.Wakeups

/-! # Each hooked call is on its own

Calls of many fibers meet in one `IOManager`, callbacks of old timers cancel what newer calls have registered, and other
users cancel and dispatch as they like. Still each call runs as `DoIo` says: the registration of its event is in its slot
while its fiber waits, and each loss of it puts the fiber into a queue once. What holds of one call in `DoIo` holds of all
of them.
-/

namespace Sylar

open IOManager (Event Handoff Consistent Owned Effect Moves)

/-- What the call registers. -/
def HookedCall.handoff (call : HookedCall) : Handoff := (some call.scheduler, .fiber call.fiber)

namespace HookedIo

variable {s t : HookedIo} {call next : HookedCall} {iom : IOManager} {i j : ℕ} {a : DoIo.Action} {action : Action}

/-! ## The view of one call -/

/-- The fiber waits, and its event is registered. -/
def registered (iom : IOManager) (call : HookedCall) : Bool :=
  call.location.waits && decide (iom.slot call.fd call.event = some call.handoff)

/-- The call as `DoIo` has it. -/
def view (s : HookedIo) (call : HookedCall) : DoIo :=
  call.core (registered s.iom call)
    (if call.location.waits then queued s.iom call.fiber - s.swappedIn call.fiber else 0)

/-- A fiber that waits is registered or queued, and once; no other fiber is either. Of the calls that are not over each
has its fiber and its event to itself. -/
structure Sound (s : HookedIo) : Prop where
  consistent : Consistent s.iom
  owned : Owned s.iom
  balanced : ∀ fiber, (∀ call ∈ s.calls, call.location.waits = true → call.fiber ≠ fiber) →
    queued s.iom fiber = s.swappedIn fiber
  woken : ∀ call ∈ s.calls, call.location.waits = true →
    queued s.iom call.fiber + (registered s.iom call).toNat = s.swappedIn call.fiber + 1
  place : ∀ call ∈ s.calls, call.returned = false → s.iom.slot call.fd call.event = none ∨
    call.location.waits = true ∧ s.iom.slot call.fd call.event = some call.handoff
  held : ∀ fd event fiber, Holds s.iom fd event fiber →
    ∃ call ∈ s.calls, call.location.waits = true ∧ call.fiber = fiber ∧ call.fd = fd ∧ call.event = event
  apart : ∀ (i j : ℕ) (first second : HookedCall), s.calls[i]? = some first → s.calls[j]? = some second →
    first.returned = false → second.returned = false →
    first.fiber = second.fiber ∨ first.fd = second.fd ∧ first.event = second.event → i = j

theorem unreturned_of_waits (waits : call.location.waits = true) : call.returned = false := by
  unfold HookedCall.returned
  cases located : call.location with
  | returned => rw [located] at waits; cases waits
  | _ => rfl

theorem registered_iff (waits : call.location.waits = true) :
    registered iom call = true ↔ iom.slot call.fd call.event = some call.handoff := by
  rw [registered, waits, Bool.true_and, decide_eq_true_eq]

theorem registered_of_idle (idle : call.location.waits = false) : registered iom call = false := by
  rw [registered, idle, Bool.false_and]

/-- A call that does not wait is all there is of it. -/
theorem view_idle (idle : call.location.waits = false) : view s call = call.core false 0 := by
  unfold view
  rw [registered_of_idle idle, idle]
  rfl

namespace Sound

theorem init : Sound new where
  consistent := IOManager.new_consistent
  owned := by
    intro fd event handoff held
    cases event <;> cases held
  balanced _ _ := rfl
  woken := by
    intro call member
    cases member
  place := by
    intro call member
    cases member
  held := by
    intro fd event fiber holds
    cases event <;> cases holds
  apart := by
    intro i j first second found
    cases found

/-- Two calls that are not over and share their fiber or their event are one. -/
theorem same (sound : Sound s) {first second : HookedCall} (firstIn : first ∈ s.calls) (secondIn : second ∈ s.calls)
    (firstGoes : first.returned = false) (secondGoes : second.returned = false)
    (shared : first.fiber = second.fiber ∨ first.fd = second.fd ∧ first.event = second.event) : first = second := by
  obtain ⟨i, foundFirst⟩ := List.getElem?_of_mem firstIn
  obtain ⟨j, foundSecond⟩ := List.getElem?_of_mem secondIn
  obtain rfl := sound.apart i j first second foundFirst foundSecond firstGoes secondGoes shared
  exact Option.some.inj (foundFirst.symm.trans foundSecond)

/-- The only slot a fiber in a call can have is that of the call. -/
theorem only (sound : Sound s) (member : call ∈ s.calls) (goes : call.returned = false) {fd : ℕ} {event : Event}
    (holds : Holds s.iom fd event call.fiber) : call.location.waits = true ∧ fd = call.fd ∧ event = call.event := by
  obtain ⟨other, otherIn, waits, fiber, rfl, rfl⟩ := sound.held fd event call.fiber holds
  obtain rfl := sound.same otherIn member (unreturned_of_waits waits) goes (.inl fiber)
  exact ⟨waits, rfl, rfl⟩

/-- A fiber that waits is queued at least as often as it was swapped in. -/
theorem swappedIn_le (sound : Sound s) (member : call ∈ s.calls) (waits : call.location.waits = true) :
    s.swappedIn call.fiber ≤ queued s.iom call.fiber := by
  have woken := sound.woken call member waits
  have bit := Bool.toNat_le (registered s.iom call)
  omega

/-- A call whose event is not registered has an empty slot, and its fiber has none. -/
theorem unregistered (sound : Sound s) (member : call ∈ s.calls) (goes : call.returned = false)
    (free : registered s.iom call = false) : s.iom.slot call.fd call.event = none ∧
      ∀ fd event, ¬ Holds s.iom fd event call.fiber := by
  have empty : s.iom.slot call.fd call.event = none := by
    obtain empty | ⟨waits, own⟩ := sound.place call member goes
    · exact empty
    · rw [(registered_iff waits).mpr own] at free
      cases free
  refine ⟨empty, ?_⟩
  intro fd event holds
  obtain ⟨-, rfl, rfl⟩ := sound.only member goes holds
  rw [Holds, empty] at holds
  cases holds

/-- A fiber in a call keeps its slot, or has none, or loses the slot of the call and is scheduled for it. -/
theorem loseOne (sound : Sound s) (loses : Loses s.iom iom) (member : call ∈ s.calls)
    (waits : call.location.waits = true) :
    registered iom call = registered s.iom call ∧ queued iom call.fiber = queued s.iom call.fiber ∨
      registered s.iom call = true ∧ registered iom call = false ∧
        queued iom call.fiber = queued s.iom call.fiber + 1 := by
  have goes := unreturned_of_waits waits
  cases was : registered s.iom call with
  | false =>
    obtain ⟨empty, nowhere⟩ := sound.unregistered member goes was
    refine .inl ⟨?_, loses.kept call.fiber fun fd event holds => absurd holds (nowhere fd event)⟩
    have still : iom.slot call.fd call.event = none := by
      obtain same | none := loses.slots call.fd call.event
      · rw [same, empty]
      · exact none
    rw [registered, still, waits]
    rfl
  | true =>
    have own := (registered_iff waits).mp was
    obtain same | none := loses.slots call.fd call.event
    · refine .inl ⟨(registered_iff waits).mpr (same.trans own), loses.kept call.fiber fun fd event holds => ?_⟩
      obtain ⟨-, rfl, rfl⟩ := sound.only member goes holds
      rwa [Holds, same]
    · have holds : Holds s.iom call.fd call.event call.fiber := congrArg (Option.map Prod.snd) own
      refine .inr ⟨rfl, ?_, loses.taken call.fiber call.fd call.event holds ?_ none⟩
      · rw [registered, none, waits]
        rfl
      · intro fd event other
        exact (sound.only member goes other).2

/-- After slots have been emptied by a cancellation or a dispatch all is as it was, but that the calls whose slot was
emptied are queued. -/
theorem lose (sound : Sound s) (loses : Loses s.iom iom) (consistent : Consistent iom) (owned : Owned iom) :
    Sound { s with iom } where
  consistent := consistent
  owned := owned
  balanced := by
    intro fiber idle
    refine (loses.kept fiber fun fd event holds => ?_).trans (sound.balanced fiber idle)
    obtain ⟨call, member, waits, same, -⟩ := sound.held fd event fiber holds
    exact absurd same (idle call member waits)
  woken := by
    intro call member waits
    have woken := sound.woken call member waits
    obtain ⟨same, queue⟩ | ⟨was, lost, queue⟩ := sound.loseOne loses member waits
    · change queued iom call.fiber + (registered iom call).toNat = s.swappedIn call.fiber + 1
      rw [same, queue, woken]
    · change queued iom call.fiber + (registered iom call).toNat = s.swappedIn call.fiber + 1
      rw [was] at woken
      rw [lost, queue]
      exact woken
  place := by
    intro call member goes
    obtain same | none := loses.slots call.fd call.event
    · have before := sound.place call member goes
      rwa [← same] at before
    · exact .inl none
  held := by
    intro fd event fiber holds
    obtain same | none := loses.slots fd event
    · apply sound.held
      rwa [Holds, ← same]
    · change Holds iom fd event fiber at holds
      rw [Holds, none] at holds
      cases holds
  apart := sound.apart

/-- To one call this is nothing, or the triggering of its event. -/
theorem view_lose (sound : Sound s) (loses : Loses s.iom iom) (member : call ∈ s.calls) :
    view { s with iom } call = view s call ∨
      (view s call).registered = true ∧ view { s with iom } call = (view s call).trigger := by
  cases waits : call.location.waits with
  | false =>
    refine .inl ?_
    unfold view
    rw [registered_of_idle waits, registered_of_idle waits, waits]
    rfl
  | true =>
    obtain ⟨same, queue⟩ | ⟨was, lost, queue⟩ := sound.loseOne loses member waits
    · refine .inl ?_
      unfold view
      dsimp only
      rw [same, queue]
    · refine .inr ⟨was, ?_⟩
      have enough := sound.swappedIn_le member waits
      unfold view
      dsimp only
      rw [lost, queue, waits, if_pos rfl, if_pos rfl, Nat.sub_add_comm enough]
      rfl

end Sound

/-! ## Steps of a call -/

/-- The call goes on for the same event of the same descriptor. -/
structure Follows (call next : HookedCall) : Prop where
  fiber : next.fiber = call.fiber
  scheduler : next.scheduler = call.scheduler
  fd : next.fd = call.fd
  event : next.event = call.event
  timeout : next.timeout = call.timeout
  goes : next.returned = false → call.returned = false

theorem Follows.handoff (follows : Follows call next) : next.handoff = call.handoff := by
  rw [HookedCall.handoff, follows.scheduler, follows.fiber]
  rfl

theorem Follows.registered (follows : Follows call next) (waits : next.location.waits = call.location.waits) :
    HookedIo.registered iom next = HookedIo.registered iom call := by
  rw [HookedIo.registered, waits, follows.fd, follows.event, follows.handoff]
  rfl

theorem getElem?_setCall_self (found : s.calls[i]? = some call) : (s.setCall i next).calls[i]? = some next :=
  List.getElem?_set_self (List.getElem?_eq_some_iff.mp found).1

theorem getElem?_setCall_of_ne (different : j ≠ i) : (s.setCall i next).calls[j]? = s.calls[j]? :=
  List.getElem?_set_ne different.symm

theorem mem_of_mem_setCall {other : HookedCall} (member : other ∈ (s.setCall i next).calls) :
    other ∈ s.calls ∨ other = next :=
  List.mem_or_eq_of_mem_set member

/-- A call of the list afterwards is there before, with the call that went on in place of its successor. -/
theorem find_setCall (found : s.calls[i]? = some call) {other : HookedCall} {k : ℕ}
    (here : (s.setCall i next).calls[k]? = some other) : k = i ∧ other = next ∨ k ≠ i ∧ s.calls[k]? = some other := by
  rcases eq_or_ne k i with rfl | different
  · rw [getElem?_setCall_self found] at here
    exact .inl ⟨rfl, (Option.some.inj here).symm⟩
  · rw [getElem?_setCall_of_ne different] at here
    exact .inr ⟨different, here⟩

theorem mem_setCall (found : s.calls[i]? = some call) (next : HookedCall) {other : HookedCall}
    (member : other ∈ s.calls) :
    other = call ∨ other ∈ (s.setCall i next).calls := by
  obtain ⟨k, here⟩ := List.getElem?_of_mem member
  rcases eq_or_ne k i with rfl | different
  · exact .inl (Option.some.inj (here.symm.trans found))
  · exact .inr (List.mem_of_getElem? ((getElem?_setCall_of_ne different).trans here))

theorem next_mem_setCall (found : s.calls[i]? = some call) : next ∈ (s.setCall i next).calls :=
  List.mem_of_getElem? (getElem?_setCall_self found)

/-- Calls stay apart while they go on. -/
theorem Sound.apart_setCall (sound : Sound s) (found : s.calls[i]? = some call) (follows : Follows call next)
    (j k : ℕ) (first second : HookedCall) (here : (s.setCall i next).calls[j]? = some first)
    (there : (s.setCall i next).calls[k]? = some second) (firstGoes : first.returned = false)
    (secondGoes : second.returned = false)
    (shared : first.fiber = second.fiber ∨ first.fd = second.fd ∧ first.event = second.event) : j = k := by
  obtain ⟨rfl, rfl⟩ | ⟨-, left⟩ := find_setCall found here <;>
    obtain ⟨rfl, rfl⟩ | ⟨-, right⟩ := find_setCall found there
  · rfl
  · rw [follows.fiber, follows.fd, follows.event] at shared
    exact sound.apart _ _ _ _ found right (follows.goes firstGoes) secondGoes shared
  · rw [follows.fiber, follows.fd, follows.event] at shared
    exact sound.apart _ _ _ _ left found firstGoes (follows.goes secondGoes) shared
  · exact sound.apart _ _ _ _ left right firstGoes secondGoes shared

/-- A step that neither begins nor ends the wait. -/
theorem Sound.setCall (sound : Sound s) (found : s.calls[i]? = some call) (follows : Follows call next)
    (waits : next.location.waits = call.location.waits) : Sound (s.setCall i next) where
  consistent := sound.consistent
  owned := sound.owned
  balanced := by
    intro fiber idle
    apply sound.balanced fiber
    intro other member otherWaits
    obtain rfl | member := mem_setCall found next member
    · rw [← follows.fiber]
      exact idle next (next_mem_setCall found) (waits.trans otherWaits)
    · exact idle other member otherWaits
  woken := by
    intro other member otherWaits
    obtain member | rfl := mem_of_mem_setCall member
    · exact sound.woken other member otherWaits
    · have woken := sound.woken call (List.mem_of_getElem? found) (waits.symm.trans otherWaits)
      change queued s.iom other.fiber + (HookedIo.registered s.iom other).toNat = s.swappedIn other.fiber + 1
      rw [follows.registered waits, follows.fiber, woken]
  place := by
    intro other member goes
    obtain member | rfl := mem_of_mem_setCall member
    · exact sound.place other member goes
    · have place := sound.place call (List.mem_of_getElem? found) (follows.goes goes)
      rw [follows.fd, follows.event, follows.handoff, waits]
      exact place
  held := by
    intro fd event fiber holds
    obtain ⟨other, member, otherWaits, rfl, rfl, rfl⟩ := sound.held fd event fiber holds
    obtain rfl | member := mem_setCall found next member
    · exact ⟨next, next_mem_setCall found, waits.trans otherWaits, follows.fiber, follows.fd, follows.event⟩
    · exact ⟨other, member, otherWaits, rfl, rfl, rfl⟩
  apart := sound.apart_setCall found follows

/-- The step has nothing to do with the registration or the queue. -/
def ofCall : DoIo.Action → Bool
  | .addEvent _ => false
  | .resume => false
  | .cancelEvent _ _ => false
  | .trigger => false
  | _ => true

theorem location_core (r : Bool) (n : ℕ) : (call.core r n).location = call.location := rfl

/-- `timer->cancel()` sees nothing of the registration. -/
theorem cancelTimer_core (timer : Option ℕ) (r : Bool) (n : ℕ) : (call.core r n).cancelTimer timer =
    (call.assign ((call.core false 0).cancelTimer timer)).core r n := by
  cases timer with
  | none => rfl
  | some k =>
    unfold DoIo.cancelTimer
    dsimp only
    by_cases pending : call.timers[k]? = some .pending
    · rw [if_pos (show (call.core r n).timers[k]? = _ from pending),
        if_pos (show (call.core false 0).timers[k]? = _ from pending)]
      rfl
    · rw [if_neg (show ¬ (call.core r n).timers[k]? = _ from pending),
        if_neg (show ¬ (call.core false 0).timers[k]? = _ from pending)]
      rfl

/-- A step that looks at a timer. -/
theorem ite_core {state : DoIo.Callback.State} {k : ℕ} {r : Bool} {n : ℕ} {first second : DoIo}
    (same : first = (call.assign second).core r n) :
    (if (call.core r n).timers[k]? = some state then some first else none) =
      (if (call.core false 0).timers[k]? = some state then some second else none).map
        fun io => (call.assign io).core r n := by
  by_cases known : call.timers[k]? = some state
  · rw [if_pos (show (call.core r n).timers[k]? = _ from known),
      if_pos (show (call.core false 0).timers[k]? = _ from known), same]
    rfl
  · rw [if_neg (show ¬ (call.core r n).timers[k]? = _ from known),
      if_neg (show ¬ (call.core false 0).timers[k]? = _ from known)]
    rfl

/-- So such a step is the same whatever they are. -/
theorem perform_core {timeout : BitVec 64} (own : ofCall a = true) (r : Bool) (n : ℕ) :
    (call.core r n).perform timeout a =
      ((call.core false 0).perform timeout a).map fun io => (call.assign io).core r n := by
  cases a with
  | addEvent => cases own
  | resume => cases own
  | cancelEvent => cases own
  | trigger => cases own
  | call outcome =>
    simp only [DoIo.perform, location_core]
    cases call.location <;> rfl
  | arm =>
    simp only [DoIo.perform, location_core]
    cases call.location <;> try rfl
    split_ifs <;> rfl
  | yield =>
    simp only [DoIo.perform, location_core]
    cases call.location <;> rfl
  | cancelTimer =>
    simp only [DoIo.perform, location_core]
    cases call.location with
    | resumed timer => exact congrArg (fun io => some (io.goto .testing)) (cancelTimer_core timer r n)
    | failed timer => exact congrArg (fun io => some (io.goto (.returned (-1) none))) (cancelTimer_core timer r n)
    | _ => rfl
  | test =>
    simp only [DoIo.perform, location_core]
    cases call.location <;> rfl
  | expire k => exact ite_core rfl
  | lock k => exact ite_core rfl
  | set k => exact ite_core rfl

theorem unreturned_of_location (goes : ∀ n errno, call.location ≠ .returned n errno) : call.returned = false := by
  unfold HookedCall.returned
  split
  · exact absurd ‹_› (goes _ _)
  · rfl

/-- Such a step neither begins nor ends the wait. -/
theorem follows_of_acts {timeout : BitVec 64} {r : Bool} {n : ℕ} {io : DoIo} (own : ofCall a = true)
    (acted : DoIo.Acts timeout (call.core r n) a io) :
    (call.assign io).location.waits = call.location.waits ∧ Follows call (call.assign io) := by
  have moved {before : DoIo.Location} (located : call.location = before) (open_ : ∀ n errno, before ≠ .returned n errno)
      (waits : io.location.waits = before.waits) :
      (call.assign io).location.waits = call.location.waits ∧ Follows call (call.assign io) := by
    refine ⟨by rw [located]; exact waits, rfl, rfl, rfl, rfl, rfl, fun _ => unreturned_of_location ?_⟩
    rwa [located]
  have stayed (same : io.location = call.location) :
      (call.assign io).location.waits = call.location.waits ∧ Follows call (call.assign io) := by
    refine ⟨congrArg DoIo.Location.waits same, rfl, rfl, rfl, rfl, rfl, fun goes => ?_⟩
    unfold HookedCall.returned at goes ⊢
    rwa [← same]
  cases acted with
  | interrupted located => exact moved located nofun rfl
  | again located => exact moved located nofun rfl
  | done located => exact moved located nofun rfl
  | arm located _ => exact moved located nofun rfl
  | untimed located _ => exact moved located nofun rfl
  | yield located => exact moved located nofun rfl
  | disarm located => exact moved located nofun rfl
  | giveUp located => exact moved located nofun rfl
  | timedOut located _ => exact moved located nofun rfl
  | retry located _ => exact moved located nofun rfl
  | expire _ => exact stayed rfl
  | first _ _ => exact stayed rfl
  | late _ _ => exact stayed rfl
  | set _ => exact stayed rfl
  | add => cases own
  | fail => cases own
  | resume => cases own
  | cancel => cases own
  | trigger => cases own

end HookedIo

end Sylar
