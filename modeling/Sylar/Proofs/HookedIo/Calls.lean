import Sylar.Proofs.HookedIo.Refinement
import Sylar.Proofs.IOManager.Cancelling

/-! # Runs of hooked calls

What a call does with the `IOManager` itself: it registers, is woken, and its callbacks cancel. With these steps every
run of many calls is, for each of its calls, a run of `DoIo`: that of its own steps, between which others may trigger
its event.
-/

namespace Sylar.HookedIo

open IOManager (Event Handoff Consistent Owned Effect Moves)

variable {s t : HookedIo} {call next : HookedCall} {iom : IOManager} {i j : ℕ} {a : DoIo.Action} {action : Action}

/-! ## Registering -/

/-- A slot that was empty is filled, and nobody is scheduled. -/
structure Fills (m t : IOManager) (fd : ℕ) (event : Event) (handoff : Handoff) : Prop where
  here : t.slot fd event = some handoff
  elsewhere : ∀ fd' event', (fd' = fd ∧ event' = event → False) → t.slot fd' event' = m.slot fd' event'
  queued : ∀ fiber, HookedIo.queued t fiber = HookedIo.queued m fiber

theorem fills_of_moves {m t : IOManager} {fd : ℕ} {event : Event} {handoff : Handoff}
    (moves : Moves m fd (Function.update (m.slot fd) event (some handoff)) [] t) : Fills m t fd event handoff where
  here := by rw [moves.here, Function.update_self]
  elsewhere := by
    intro fd' event' different
    rcases eq_or_ne fd' fd with rfl | other
    · rw [moves.here, Function.update_of_ne fun same => different ⟨rfl, same⟩]
    · rw [moves.elsewhere fd' other]
  queued fiber := queued_of_moves moves fiber

namespace Sound

/-- A call that is not over and does not have the slot that is filled is as it was. -/
theorem registered_fills {fd : ℕ} {event : Event} {handoff : Handoff}
    (fills : Fills s.iom iom fd event handoff) (different : call.fd = fd ∧ call.event = event → False) :
    registered iom call = registered s.iom call := by
  rw [registered, fills.elsewhere _ _ different, registered]

/-- Others register a callback for an event that no call has. -/
theorem fillOther (sound : Sound s) {fd : ℕ} {event : Event} {scheduler : Option SchedulerPtr} {cb : Callback}
    (fills : Fills s.iom iom fd event (scheduler, .cb cb)) (consistent : Consistent iom) (owned : Owned iom)
    (unused : ¬ s.Uses fd event) : Sound { s with iom } ∧ ∀ call ∈ s.calls, view { s with iom } call = view s call := by
  have apart (call : HookedCall) (member : call ∈ s.calls) (goes : call.returned = false) :
      call.fd = fd ∧ call.event = event → False :=
    fun same => unused ⟨call, member, goes, same.1, same.2⟩
  refine ⟨⟨consistent, owned, ?_, ?_, ?_, ?_, sound.apart⟩, ?_⟩
  · intro fiber idle
    exact (fills.queued fiber).trans (sound.balanced fiber idle)
  · intro call member waits
    change queued iom call.fiber + (registered iom call).toNat = s.swappedIn call.fiber + 1
    rw [fills.queued, registered_fills fills (apart call member (unreturned_of_waits waits))]
    exact sound.woken call member waits
  · intro call member goes
    change iom.slot call.fd call.event = none ∨ _ ∧ iom.slot call.fd call.event = _
    rw [fills.elsewhere _ _ (apart call member goes)]
    exact sound.place call member goes
  · intro fd' event' fiber holds
    by_cases same : fd' = fd ∧ event' = event
    · obtain ⟨rfl, rfl⟩ := same
      change Holds iom fd' event' fiber at holds
      rw [Holds, fills.here] at holds
      cases holds
    · apply sound.held
      change Holds iom fd' event' fiber at holds
      rwa [Holds, fills.elsewhere _ _ same] at holds
  · intro call member
    unfold view
    dsimp only
    cases waits : call.location.waits with
    | false =>
      rw [registered_of_idle waits, registered_of_idle waits]
      rfl
    | true => rw [registered_fills fills (apart call member (unreturned_of_waits waits)), fills.queued]

/-- A call that is not over and is not the one that goes on has another fiber and another place. -/
theorem others (sound : Sound s) (found : s.calls[i]? = some call) (goes : call.returned = false) {other : HookedCall}
    (member : other ∈ (s.setCall i next).calls) (otherGoes : other.returned = false) : other = next ∨
      other ∈ s.calls ∧ other.fiber ≠ call.fiber ∧ (other.fd = call.fd ∧ other.event = call.event → False) := by
  obtain ⟨k, here⟩ := List.getElem?_of_mem member
  obtain ⟨-, rfl⟩ | ⟨different, before⟩ := find_setCall found here
  · exact .inl rfl
  · refine .inr ⟨List.mem_of_getElem? before, ?_, ?_⟩
    · exact fun same => different (sound.apart _ _ _ _ before found otherGoes goes (.inl same))
    · exact fun same => different (sound.apart _ _ _ _ before found otherGoes goes (.inr same))

/-- The fiber of a call that does not wait is not queued. -/
theorem unqueued (sound : Sound s) (member : call ∈ s.calls) (goes : call.returned = false)
    (idle : call.location.waits = false) : queued s.iom call.fiber = s.swappedIn call.fiber := by
  apply sound.balanced
  intro other otherIn waits same
  obtain rfl := sound.same otherIn member (unreturned_of_waits waits) goes (.inl same)
  rw [idle] at waits
  cases waits

/-- A call registers its event and is about to wait. -/
theorem add (sound : Sound s) (found : s.calls[i]? = some call) (timer : Option ℕ) (goes : call.returned = false)
    (idle : call.location.waits = false) (fills : Fills s.iom iom call.fd call.event call.handoff)
    (consistent : Consistent iom) (owned : Owned iom) :
    Sound ({ s with iom }.setCall i (call.goto (.added timer))) where
  consistent := consistent
  owned := owned
  balanced := by
    intro fiber unwaited
    refine (fills.queued fiber).trans (sound.balanced fiber fun other member waits => ?_)
    obtain rfl | member := mem_setCall found (call.goto (.added timer)) member
    · rw [idle] at waits
      cases waits
    · exact unwaited other member waits
  woken := by
    intro other member waits
    obtain rfl | ⟨before, -, apart⟩ := sound.others found goes member (unreturned_of_waits waits)
    · have own : registered iom (call.goto (.added timer)) = true := (registered_iff rfl).mpr fills.here
      change queued iom call.fiber + (registered iom (call.goto (.added timer))).toNat = s.swappedIn call.fiber + 1
      rw [fills.queued, own, sound.unqueued (List.mem_of_getElem? found) goes idle]
      rfl
    · change queued iom other.fiber + (registered iom other).toNat = s.swappedIn other.fiber + 1
      rw [fills.queued, registered_fills fills apart]
      exact sound.woken other before waits
  place := by
    intro other member otherGoes
    obtain rfl | ⟨before, -, apart⟩ := sound.others found goes member otherGoes
    · exact .inr ⟨rfl, fills.here⟩
    · change iom.slot other.fd other.event = none ∨ _ ∧ iom.slot other.fd other.event = _
      rw [fills.elsewhere _ _ apart]
      exact sound.place other before otherGoes
  held := by
    intro fd event fiber holds
    change Holds iom fd event fiber at holds
    by_cases same : fd = call.fd ∧ event = call.event
    · obtain ⟨rfl, rfl⟩ := same
      rw [Holds, fills.here] at holds
      refine ⟨call.goto (.added timer), next_mem_setCall found, rfl, ?_, rfl, rfl⟩
      exact Task.fiber.inj (Option.some.inj holds)
    · rw [Holds, fills.elsewhere _ _ same] at holds
      obtain ⟨other, member, waits, rest⟩ := sound.held fd event fiber holds
      obtain rfl | member := mem_setCall found (call.goto (.added timer)) member
      · rw [idle] at waits
        cases waits
      · exact ⟨other, member, waits, rest⟩
  apart := sound.apart_setCall found ⟨rfl, rfl, rfl, rfl, rfl, fun _ => goes⟩

/-- Its fiber is swapped in again. -/
theorem resume (sound : Sound s) (found : s.calls[i]? = some call) {timer : Option ℕ}
    (located : call.location = .parked timer)
    (scheduled : s.swappedIn call.fiber < queued s.iom call.fiber) :
    registered s.iom call = false ∧ queued s.iom call.fiber = s.swappedIn call.fiber + 1 ∧
      Sound ({ s with swappedIn := Function.update s.swappedIn call.fiber (s.swappedIn call.fiber + 1) }.setCall i
        (call.goto (.resumed timer))) := by
  have member := List.mem_of_getElem? found
  have waits : call.location.waits = true := by rw [located]; rfl
  have goes := unreturned_of_waits waits
  have woken := sound.woken call member waits
  have free : registered s.iom call = false := by
    cases was : registered s.iom call with
    | false => rfl
    | true =>
      rw [was] at woken
      change queued s.iom call.fiber + 1 = _ at woken
      omega
  rw [free] at woken
  have nowhere := (sound.unregistered member goes free).2
  have counts (fiber : FiberPtr) (different : fiber ≠ call.fiber) :
      Function.update s.swappedIn call.fiber (s.swappedIn call.fiber + 1) fiber = s.swappedIn fiber :=
    Function.update_of_ne different _ _
  refine ⟨free, woken, sound.consistent, sound.owned, ?_, ?_, ?_, ?_, ?_⟩
  · intro fiber idle
    change queued s.iom fiber = Function.update s.swappedIn call.fiber (s.swappedIn call.fiber + 1) fiber
    rcases eq_or_ne fiber call.fiber with rfl | different
    · rw [Function.update_self]
      exact woken
    · rw [counts fiber different]
      apply sound.balanced fiber
      intro other otherIn otherWaits
      obtain rfl | otherIn := mem_setCall found (call.goto (.resumed timer)) otherIn
      · exact different.symm
      · exact idle other otherIn otherWaits
  · intro other otherIn otherWaits
    obtain rfl | ⟨before, different, -⟩ := sound.others found goes otherIn (unreturned_of_waits otherWaits)
    · cases otherWaits
    · change queued s.iom other.fiber + (registered s.iom other).toNat =
        Function.update s.swappedIn call.fiber (s.swappedIn call.fiber + 1) other.fiber + 1
      rw [counts _ different]
      exact sound.woken other before otherWaits
  · intro other otherIn otherGoes
    obtain rfl | ⟨before, -, -⟩ := sound.others found goes otherIn otherGoes
    · exact .inl (sound.unregistered member goes free).1
    · exact sound.place other before otherGoes
  · intro fd event fiber holds
    obtain ⟨other, otherIn, otherWaits, rfl, rfl, rfl⟩ := sound.held fd event fiber holds
    obtain rfl | otherIn := mem_setCall found (call.goto (.resumed timer)) otherIn
    · exact absurd holds (nowhere _ _)
    · exact ⟨other, otherIn, otherWaits, rfl, rfl, rfl⟩
  · exact sound.apart_setCall found ⟨rfl, rfl, rfl, rfl, rfl, fun _ => goes⟩

/-- A fiber enters a call for an event that nobody has. -/
theorem enter (sound : Sound s) (idle : call.location.waits = false)
    (alone : ∀ other ∈ s.calls, other.returned = false → other.fiber ≠ call.fiber)
    (unused : ¬ s.Uses call.fd call.event)
    (empty : (s.iom.context call.fd).getContext call.event = {}) : Sound { s with calls := s.calls ++ [call] } := by
  have old {other : HookedCall} (member : other ∈ s.calls ++ [call]) : other ∈ s.calls ∨ other = call := by
    simpa using member
  have apart (other : HookedCall) (member : other ∈ s.calls) (goes : other.returned = false)
      (shared : other.fiber = call.fiber ∨ other.fd = call.fd ∧ other.event = call.event) : False := by
    obtain fiber | ⟨fd, event⟩ := shared
    · exact alone other member goes fiber
    · exact unused ⟨other, member, goes, fd, event⟩
  refine ⟨sound.consistent, sound.owned, ?_, ?_, ?_, ?_, ?_⟩
  · intro other unwaited
    exact sound.balanced other fun call member => unwaited call (List.mem_append_left _ member)
  · intro other member waits
    obtain member | rfl := old member
    · exact sound.woken other member waits
    · rw [idle] at waits
      cases waits
  · intro other member goes
    obtain member | rfl := old member
    · exact sound.place other member goes
    · refine .inl ?_
      change ((s.iom.context other.fd).getContext other.event).handoff = none
      rw [empty]
      rfl
  · intro fd event fiber holds
    obtain ⟨other, member, rest⟩ := sound.held fd event fiber holds
    exact ⟨other, List.mem_append_left _ member, rest⟩
  · intro i j first second here there firstGoes secondGoes shared
    obtain left | ⟨rfl, rfl⟩ := List.getElem?_concat_eq_some_iff.mp here <;>
      obtain right | ⟨rfl, rfl⟩ := List.getElem?_concat_eq_some_iff.mp there
    · exact sound.apart _ _ _ _ left right firstGoes secondGoes shared
    · exact (apart first (List.mem_of_getElem? left) firstGoes shared).elim
    · refine (apart second (List.mem_of_getElem? right) secondGoes ?_).elim
      exact shared.imp Eq.symm fun same => ⟨same.1.symm, same.2.symm⟩
    · rfl

end Sound

/-! ## One step -/

/-- To a call that does not step itself a step is nothing, or the triggering of its event. -/
def Feels (s t : HookedIo) (call : HookedCall) : Prop :=
  view t call = view s call ∨ (DoIo.machine call.timeout).Step (view s call) .trigger (view t call)

theorem Sound.feels_lose (sound : Sound s) (loses : Loses s.iom iom) (member : call ∈ s.calls) :
    Feels s { s with iom } call := by
  obtain same | ⟨registered, after⟩ := sound.view_lose loses member
  · exact .inl same
  · refine .inr ?_
    rw [after]
    exact if_pos registered

/-- A call makes this step of `DoIo`, and the others feel it at most. -/
structure Steps (s : HookedIo) (i : ℕ) (call : HookedCall) (a : DoIo.Action) (t : HookedIo) : Prop where
  sound : Sound t
  own : ∃ next, Follows call next ∧ t.calls = s.calls.set i next ∧
    (DoIo.machine call.timeout).Step (view s call) a (view t next)
  others : ∀ k other, k ≠ i → s.calls[k]? = some other → Feels s t other

namespace Sound

/-- A step that has nothing to do with the registration or the queue. -/
theorem stepOwn (sound : Sound s) (found : s.calls[i]? = some call) (own : ofCall a = true)
    (ran : ((call.core false 0).perform call.timeout a).map (fun io => s.setCall i (call.assign io)) = some t) :
    Steps s i call a t := by
  obtain ⟨io, did, rfl⟩ := Option.map_eq_some_iff.mp ran
  obtain ⟨waits, follows⟩ := follows_of_acts own (DoIo.acts_of_step did)
  refine ⟨sound.setCall found follows waits, ⟨call.assign io, follows, rfl, ?_⟩, fun _ _ _ _ => .inl rfl⟩
  have same : view (s.setCall i (call.assign io)) (call.assign io) = (call.assign io).core (registered s.iom call)
      (if call.location.waits then queued s.iom call.fiber - s.swappedIn call.fiber else 0) := by
    unfold view
    rw [waits]
    exact congrArg (fun b => (call.assign io).core b _) (follows.registered waits)
  change (view s call).perform call.timeout a = some (view _ (call.assign io))
  rw [same]
  exact (perform_core own _ _).trans (congrArg (Option.map _) did)

theorem stepAdd (sound : Sound s) (found : s.calls[i]? = some call) {granted : Bool}
    (ran : s.stepCall i call (.addEvent granted) = some t) : Steps s i call (.addEvent granted) t := by
  simp only [stepCall] at ran
  split at ran
  · rename_i timer located
    have idle : call.location.waits = false := by rw [located]; rfl
    have goes : call.returned = false := unreturned_of_location (by rw [located]; exact nofun)
    have performed (granted : Bool) : (view s call).perform call.timeout (.addEvent granted) =
        if granted then some ((call.goto (.added timer)).core true 0)
        else some ((call.goto (.failed timer)).core false 0) := by
      rw [view_idle idle]
      simp only [DoIo.perform, location_core, located]
      rfl
    have free := (sound.unregistered (List.mem_of_getElem? found) goes (registered_of_idle idle)).1
    obtain ⟨iom, completes⟩ := sound.consistent.addEvent_completes free (some call.scheduler) call.fiber granted
    split at ran
    · rename_i added _ did
      obtain ⟨rfl, rfl⟩ := Prod.ext_iff.mp (Except.ok.inj (completes.symm.trans did))
      have step : Effect s.iom
          (.addEvent call.fd call.event none ⟨some call.scheduler, call.fiber, true⟩ granted, granted) iom :=
        sound.consistent.addEvent did
      have owned := step.owned sound.owned rfl
      cases step with
      | refused unchanged consistent =>
        cases ran
        have loses := Loses.of_unchanged unchanged
        have follows : Follows call (call.goto (.failed timer)) := ⟨rfl, rfl, rfl, rfl, rfl, fun _ => goes⟩
        refine ⟨(sound.lose loses consistent owned).setCall found follows idle.symm, ⟨_, follows, rfl, ?_⟩, ?_⟩
        · exact (performed false).trans (congrArg some (view_idle rfl).symm)
        · intro k other _ here
          exact sound.feels_lose loses (List.mem_of_getElem? here)
      | added _ moves =>
        cases ran
        have fills := fills_of_moves moves
        have follows : Follows call (call.goto (.added timer)) := ⟨rfl, rfl, rfl, rfl, rfl, fun _ => goes⟩
        refine ⟨sound.add found timer goes idle fills moves.consistent owned, ⟨_, follows, rfl, ?_⟩, ?_⟩
        · have after : view ({ s with iom }.setCall i (call.goto (.added timer))) (call.goto (.added timer)) =
              (call.goto (.added timer)).core true 0 := by
            have own : registered iom (call.goto (.added timer)) = true := (registered_iff rfl).mpr fills.here
            have none : queued iom call.fiber - s.swappedIn call.fiber = 0 := by
              rw [fills.queued, sound.unqueued (List.mem_of_getElem? found) goes idle, Nat.sub_self]
            change (call.goto (.added timer)).core (registered iom (call.goto (.added timer)))
              (queued iom call.fiber - s.swappedIn call.fiber) = _
            rw [own, none]
          exact (performed true).trans (congrArg some after.symm)
        · intro k other different here
          refine .inl ?_
          have apart (goes' : other.returned = false) : other.fd = call.fd ∧ other.event = call.event → False :=
            fun same => different (sound.apart _ _ _ _ here found goes' goes (.inr same))
          cases waits : other.location.waits with
          | false => rw [view_idle waits, view_idle waits]
          | true =>
            change other.core (registered iom other) (if other.location.waits then
              queued iom other.fiber - s.swappedIn other.fiber else 0) = view s other
            rw [registered_fills fills (apart (unreturned_of_waits waits)), fills.queued]
            rfl
    · cases ran
  · cases ran

theorem stepResume (sound : Sound s) (found : s.calls[i]? = some call) (ran : s.stepCall i call .resume = some t) :
    Steps s i call .resume t := by
  simp only [stepCall] at ran
  split at ran
  · rename_i timer located
    split_ifs at ran with scheduled
    cases ran
    have waits : call.location.waits = true := by rw [located]; rfl
    have goes := unreturned_of_waits waits
    obtain ⟨free, woken, after⟩ := sound.resume found located scheduled
    have follows : Follows call (call.goto (.resumed timer)) := ⟨rfl, rfl, rfl, rfl, rfl, fun _ => goes⟩
    refine ⟨after, ⟨call.goto (.resumed timer), follows, rfl, ?_⟩, ?_⟩
    · have before : view s call = call.core false 1 := by
        unfold view
        rw [free, woken, waits, if_pos rfl, Nat.add_sub_cancel_left]
      have performed : (view s call).perform call.timeout .resume =
          some ((call.goto (.resumed timer)).core false 0) := by
        rw [before]
        simp only [DoIo.perform, location_core, located]
        rfl
      exact performed.trans (congrArg some (view_idle rfl).symm)
    · intro k other different here
      refine .inl ?_
      cases otherWaits : other.location.waits with
      | false => rw [view_idle otherWaits, view_idle otherWaits]
      | true =>
        have apart : other.fiber ≠ call.fiber := fun same =>
          different (sound.apart _ _ _ _ here found (unreturned_of_waits otherWaits) goes (.inl same))
        have count : Function.update s.swappedIn call.fiber (s.swappedIn call.fiber + 1) other.fiber =
            s.swappedIn other.fiber := Function.update_of_ne apart _ _
        change other.core (registered s.iom other) (if other.location.waits then queued s.iom other.fiber -
          Function.update s.swappedIn call.fiber (s.swappedIn call.fiber + 1) other.fiber else 0) = view s other
        rw [count]
        rfl
  · cases ran

/-- What the call sees of `cancelEvent` of its event. -/
theorem view_cancelEvent (sound : Sound s) (loses : Loses s.iom iom) (member : call ∈ s.calls) {granted result : Bool}
    (did : s.iom.cancelEvent call.fd call.event granted = .ok (result, iom)) :
    (view s call).cancelEvent granted = view { s with iom } call := by
  cases granted with
  | false =>
    obtain ⟨-, rfl⟩ := Prod.ext_iff.mp (Except.ok.inj ((s.iom.cancelEvent_refused _ _).symm.trans did))
    exact DoIo.cancelEvent_refused
  | true =>
    have cleared : (view { s with iom } call).registered = false := by
      change registered iom call = false
      rw [registered, sound.consistent.cancelEvent_clears did]
      exact Bool.and_false _
    unfold DoIo.cancelEvent
    obtain same | ⟨was, triggered⟩ := sound.view_lose loses member
    · rw [← same, cleared]
      rfl
    · rw [was, triggered]
      rfl

theorem stepCancel (sound : Sound s) (found : s.calls[i]? = some call) {k : ℕ} {granted : Bool}
    (ran : s.stepCall i call (.cancelEvent k granted) = some t) : Steps s i call (.cancelEvent k granted) t := by
  simp only [stepCall] at ran
  split_ifs at ran with cancelling
  split at ran
  · rename_i result iom did
    cases ran
    have step : Effect s.iom (.cancelEvent call.fd call.event granted, result) iom := sound.consistent.cancelEvent did
    have loses := loses_of_effect step nofun nofun
    have owned := step.owned sound.owned trivial
    have follows : Follows call { call with timers := call.timers.set k .consumed } := ⟨rfl, rfl, rfl, rfl, rfl, id⟩
    have member := List.mem_of_getElem? found
    refine ⟨(sound.lose loses step.consistent owned).setCall found follows rfl, ⟨_, follows, rfl, ?_⟩, ?_⟩
    · have after := sound.view_cancelEvent loses member did
      change (view s call).perform call.timeout (.cancelEvent k granted) = some (view _ _)
      simp only [DoIo.perform]
      rw [if_pos (show (view s call).timers[k]? = _ from cancelling), after]
      rfl
    · intro j other _ here
      exact sound.feels_lose loses (List.mem_of_getElem? here)
  · cases ran

/-- Whatever a call does next. -/
theorem steps (sound : Sound s) (found : s.calls[i]? = some call) (ran : s.stepCall i call a = some t) :
    Steps s i call a t := by
  cases a with
  | addEvent granted => exact sound.stepAdd found ran
  | resume => exact sound.stepResume found ran
  | cancelEvent k granted => exact sound.stepCancel found ran
  | trigger => cases ran
  | call => exact sound.stepOwn found rfl ran
  | arm => exact sound.stepOwn found rfl ran
  | yield => exact sound.stepOwn found rfl ran
  | cancelTimer => exact sound.stepOwn found rfl ran
  | test => exact sound.stepOwn found rfl ran
  | expire => exact sound.stepOwn found rfl ran
  | lock => exact sound.stepOwn found rfl ran
  | set => exact sound.stepOwn found rfl ran

/-- Others use the `IOManager`. -/
theorem request (sound : Sound s) {r : IOManager.Request} {result : Bool} (ran : s.iom.perform r = .ok (result, iom))
    (allowed : s.Allowed (.request r)) : Sound { s with iom } ∧ ∀ call ∈ s.calls, Feels s { s with iom } call := by
  have effect : Effect s.iom (r, result) iom := sound.consistent.effect ran
  have losing (owned : Owned iom) (loses : Loses s.iom iom) :
      Sound { s with iom } ∧ ∀ call ∈ s.calls, Feels s { s with iom } call :=
    ⟨sound.lose loses effect.consistent owned, fun _ member => sound.feels_lose loses member⟩
  cases r with
  | addEvent fd event cb caller granted =>
    obtain ⟨unused, isCallback, onScheduler⟩ := allowed
    obtain ⟨cb, rfl⟩ := Option.isSome_iff_exists.mp isCallback
    have owned := effect.owned sound.owned onScheduler
    cases effect with
    | refused unchanged consistent => exact losing owned (.of_unchanged unchanged)
    | added _ moves =>
      obtain ⟨after, same⟩ := sound.fillOther (fills_of_moves moves) moves.consistent owned unused
      exact ⟨after, fun call member => .inl (same call member)⟩
  | delEvent fd event granted =>
    apply losing (effect.owned sound.owned trivial)
    apply loses_of_effect effect nofun
    rintro _ _ _ same fiber holds
    cases same
    obtain ⟨call, member, waits, -, place⟩ := sound.held fd event fiber holds
    exact allowed ⟨call, member, unreturned_of_waits waits, place⟩
  | cancelEvent => exact losing (effect.owned sound.owned trivial) (loses_of_effect effect nofun nofun)
  | cancelAll => exact losing (effect.owned sound.owned trivial) (loses_of_effect effect nofun nofun)
  | dispatch => exact losing (effect.owned sound.owned trivial) (loses_of_effect effect nofun nofun)

end Sound

/-! ## Runs -/

/-- The runs in which the users keep to what is allowed. -/
def careful : Machine HookedIo Action := machine.restrict Allowed

/-- What a run is for one of its calls: the steps of the call, in their order, and of each step of the others nothing or
that its event is triggered. -/
inductive Projects (i : ℕ) : List Action → List DoIo.Action → Prop
  | nil : Projects i [] []
  | own {actions : List Action} {labels : List DoIo.Action} (a : DoIo.Action) :
      Projects i actions labels → Projects i (actions ++ [.step i a]) (labels ++ [a])
  | unseen {actions : List Action} {labels : List DoIo.Action} {action : Action} :
      (∀ a, action ≠ .step i a) → Projects i actions labels → Projects i (actions ++ [action]) labels
  | triggered {actions : List Action} {labels : List DoIo.Action} {action : Action} :
      (∀ a, action ≠ .step i a) → Projects i actions labels → Projects i (actions ++ [action]) (labels ++ [.trigger])

/-- Each call has come where it is as `DoIo` may, by its own steps. -/
structure Traced (actions : List Action) (s : HookedIo) : Prop where
  made : ∀ (i : ℕ) (call : HookedCall), s.calls[i]? = some call →
    ∃ labels, Projects i actions labels ∧ (DoIo.machine call.timeout).Path {} labels (view s call)
  unmade : ∀ i, s.calls.length ≤ i → Projects i actions []

/-- A call that feels a step goes on in its run. -/
theorem Feels.path {actions : List Action} (feels : Feels s t call) (other : ∀ a, action ≠ .step i a)
    (ran : ∃ labels, Projects i actions labels ∧ (DoIo.machine call.timeout).Path {} labels (view s call)) :
    ∃ labels, Projects i (actions ++ [action]) labels ∧ (DoIo.machine call.timeout).Path {} labels (view t call) := by
  obtain ⟨labels, projects, path⟩ := ran
  obtain same | step := feels
  · rw [same]
    exact ⟨labels, .unseen other projects, path⟩
  · exact ⟨_, .triggered other projects, path.snoc step⟩

theorem kept {actions : List Action} (sound : Sound s) (traced : Traced actions s) (step : careful.Step s action t) :
    Sound t ∧ Traced (actions ++ [action]) t := by
  obtain ⟨allowed, ran⟩ := step
  change s.perform action = some t at ran
  cases action with
  | enter fiber scheduler fd event timeout =>
    cases ran
    obtain ⟨alone, unused, empty⟩ := allowed
    refine ⟨sound.enter rfl alone unused empty, ?_, ?_⟩
    · intro i call found
      change (s.calls ++ [_])[i]? = some call at found
      obtain old | ⟨rfl, rfl⟩ := List.getElem?_concat_eq_some_iff.mp found
      · exact Feels.path (.inl rfl) nofun (traced.made i call old)
      · exact ⟨[], .unseen nofun (traced.unmade _ le_rfl), by rw [view_idle rfl]; exact .nil _⟩
    · intro i past
      change (s.calls ++ [_]).length ≤ i at past
      rw [List.length_append] at past
      exact .unseen nofun (traced.unmade i (Nat.le_of_add_right_le past))
  | step i a =>
    obtain ⟨call, found, ran⟩ := Option.bind_eq_some_iff.mp ran
    have inside := (List.getElem?_eq_some_iff.mp found).1
    have other {k : ℕ} (different : k ≠ i) (b : DoIo.Action) : Action.step i a ≠ .step k b := by
      intro same
      cases same
      exact different rfl
    have steps := sound.steps found ran
    obtain ⟨next, follows, calls, stepped⟩ := steps.own
    refine ⟨steps.sound, ?_, ?_⟩
    · intro k call' here
      rw [calls] at here
      rcases eq_or_ne k i with rfl | different
      · rw [List.getElem?_set_self inside] at here
        obtain rfl := Option.some.inj here
        obtain ⟨labels, projects, path⟩ := traced.made k call found
        rw [follows.timeout]
        exact ⟨_, .own a projects, path.snoc stepped⟩
      · rw [List.getElem?_set_ne different.symm] at here
        exact (steps.others k call' different here).path (other different) (traced.made k call' here)
    · intro k past
      rw [calls, List.length_set] at past
      exact .unseen (other (Nat.ne_of_gt (Nat.lt_of_lt_of_le inside past))) (traced.unmade k past)
  | request r =>
    simp only [perform] at ran
    split at ran
    · cases ran
      rename_i result iom did
      obtain ⟨after, feels⟩ := sound.request did allowed
      refine ⟨after, ?_, ?_⟩
      · intro i call found
        exact (feels call (List.mem_of_getElem? found)).path nofun (traced.made i call found)
      · intro i past
        exact .unseen nofun (traced.unmade i past)
    · cases ran

theorem sound_of_path {actions : List Action} (run : careful.Path new actions s) : Sound s ∧ Traced actions s := by
  have init : Sound new ∧ Traced [] new := by
    refine ⟨.init, ?_, fun i _ => .nil⟩
    intro i call found
    cases found
  apply run.history (P := fun actions s => Sound s ∧ Traced actions s) ?_ init
  rintro actions s action t ⟨sound, traced⟩ step
  exact kept sound traced step

end Sylar.HookedIo
