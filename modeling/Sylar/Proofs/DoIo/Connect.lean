import Sylar.Model.Connect
import Sylar.Proofs.DoIo.Returns

/-! # What a hooked `connect` returns and what it leaves behind

The wait is accounted for as that of `do_io` is. A `connect` that has waited returns what `getsockopt` tells it, whether
it was woken or could not register, and `ETIMEDOUT` only when its timer has expired.
-/

namespace Sylar.Connect

open DoIo (ETIMEDOUT Accounted)

variable {timeout : BitVec 64} {s t : Connect} {action : Action} {actions : List Action} {i : ℕ}

/-- The step of the wait, if it is one. -/
def Action.wait? : Action → Option DoIo.Action
  | .wait action => some action
  | _ => none

/-- The steps of the wait. -/
def waits (actions : List Action) : List DoIo.Action := actions.filterMap Action.wait?

theorem waits_wait (actions : List Action) (a : DoIo.Action) : waits (actions ++ [.wait a]) = waits actions ++ [a] :=
  List.filterMap_append

theorem waits_other (actions : List Action) (other : action.wait? = none) :
    waits (actions ++ [action]) = waits actions := by
  simp [waits, other]

/-- What the call returns follows from what has happened in it. -/
inductive Returns (actions : List Action) : ℤ → Option ℕ → Prop
  | answered {n : ℤ} {inProgress : Bool} : .connect n inProgress ∈ actions → ¬ (n = -1 ∧ inProgress) →
      Returns actions n none
  | timedOut {i : ℕ} : .wait (.expire i) ∈ actions → Returns actions (-1) (some ETIMEDOUT)
  | unknown : .getsockopt none ∈ actions → Returns actions (-1) none
  | connected : .getsockopt (some 0) ∈ actions → .wait .resume ∈ actions ∨ .wait (.addEvent false) ∈ actions →
      Returns actions 0 none
  | failed {error : ℕ} : .getsockopt (some error) ∈ actions → error ≠ 0 → Returns actions (-1) (some error)

theorem Returns.snoc {n : ℤ} {errno : Option ℕ} (returns : Returns actions n errno) :
    Returns (actions ++ [action]) n errno := by
  cases returns with
  | answered member final => exact .answered (List.mem_append_left _ member) final
  | timedOut member => exact .timedOut (List.mem_append_left _ member)
  | unknown member => exact .unknown (List.mem_append_left _ member)
  | connected member waited =>
    exact .connected (List.mem_append_left _ member)
      (waited.imp (List.mem_append_left _) (List.mem_append_left _))
  | failed member nonzero => exact .failed (List.mem_append_left _ member) nonzero

theorem mem_waits {a : DoIo.Action} : a ∈ waits actions ↔ .wait a ∈ actions := by
  rw [waits, List.mem_filterMap]
  constructor
  · rintro ⟨action, member, same⟩
    cases action with
    | wait other =>
      obtain rfl := Option.some.inj same
      exact member
    | connect => cases same
    | getsockopt => cases same
  · intro member
    exact ⟨_, member, rfl⟩

/-- The fiber is in the middle of the wait; behind the yield it has been woken. -/
def Inside (actions : List Action) : DoIo.Location → Prop
  | .calling => False
  | .returned _ _ => False
  | .resumed _ => .wait .resume ∈ actions
  | .testing => .wait .resume ∈ actions
  | _ => True

/-- Where the call and its wait are, seen together. -/
inductive Stands (actions : List Action) : Stage → DoIo.Location → Prop
  | connecting : Stands actions .connecting .arming
  | waiting {location : DoIo.Location} : Inside actions location → Stands actions .waiting location
  | asking {location : DoIo.Location} : location = .calling ∨ location = .returned (-1) none →
      .wait .resume ∈ actions ∨ .wait (.addEvent false) ∈ actions → Stands actions .asking location
  | returned {location : DoIo.Location} {n : ℤ} {errno : Option ℕ} : location.waits = false → location.timer = none →
      Returns actions n errno → Stands actions (.returned n errno) location

/-- The account of the whole call. -/
structure Kept (actions : List Action) (s : Connect) : Prop where
  accounted : Accounted (waits actions) s.io
  stands : Stands actions s.stage s.io.location

theorem Inside.snoc {location : DoIo.Location} (inside : Inside actions location) :
    Inside (actions ++ [action]) location := by
  cases location with
  | resumed => exact List.mem_append_left _ inside
  | testing => exact List.mem_append_left _ inside
  | calling => exact inside
  | returned => exact inside
  | arming => trivial
  | adding => trivial
  | failed => trivial
  | added => trivial
  | parked => trivial

theorem Stands.snoc {stage : Stage} {location : DoIo.Location} (stands : Stands actions stage location) :
    Stands (actions ++ [action]) stage location := by
  cases stands with
  | connecting => exact .connecting
  | waiting inside => exact .waiting inside.snoc
  | asking located waited => exact .asking located (waited.imp (List.mem_append_left _) (List.mem_append_left _))
  | returned waits timer returns => exact .returned waits timer returns.snoc

/-- A call does not move on where its wait does not. -/
theorem Stands.onward {stage : Stage} {location : DoIo.Location} (stands : Stands actions stage location) :
    onward stage location = stage := by
  cases stands with
  | connecting => rfl
  | waiting inside =>
    cases location with
    | calling => exact inside.elim
    | returned => exact inside.elim
    | _ => rfl
  | asking => rfl
  | returned => rfl

/-- In front of `getsockopt` the wait is over. -/
theorem Stands.asked {location : DoIo.Location} (stands : Stands actions .asking location) :
    location.waits = false ∧ location.timer = none ∧
      (.wait .resume ∈ actions ∨ .wait (.addEvent false) ∈ actions) := by
  cases stands with
  | asking located waited => obtain rfl | rfl := located <;> exact ⟨rfl, rfl, waited⟩

/-- A step of the fiber in its wait. -/
theorem Stands.wait {io after : DoIo} {a : DoIo.Action} (accounted : Accounted (waits actions) io)
    (stands : Stands actions .waiting io.location) (acted : DoIo.Acts timeout io a after) (own : ofOthers a = false)
    (uncalled : a.outcome? = none) :
    Stands (actions ++ [.wait a]) (Connect.onward .waiting after.location) after.location := by
  have inside : Inside actions io.location := by
    cases stands with
    | waiting inside => exact inside
  have last {b : DoIo.Action} (same : a = b) : Action.wait b ∈ actions ++ [.wait a] := by
    rw [same]
    exact List.mem_append_right _ List.mem_cons_self
  cases acted with
  | interrupted => cases uncalled
  | again => cases uncalled
  | done => cases uncalled
  | arm located _ => exact .waiting trivial
  | untimed located _ => exact .waiting trivial
  | add located => exact .waiting trivial
  | fail located => exact .waiting trivial
  | yield located => exact .waiting trivial
  | resume located _ => exact .waiting (last rfl)
  | disarm located =>
    rw [located] at inside
    exact .waiting (List.mem_append_left _ inside)
  | giveUp located =>
    have refused := mem_waits.mp (accounted.refused _ located)
    exact .asking (.inr rfl) (.inr (List.mem_append_left _ refused))
  | timedOut located set =>
    obtain ⟨value, i, member⟩ := accounted.cancelled set
    rw [value]
    exact .returned rfl rfl (.timedOut (List.mem_append_left _ (mem_waits.mp member)))
  | retry located _ =>
    rw [located] at inside
    exact .asking (.inl rfl) (.inl (List.mem_append_left _ inside))
  | expire => cases own
  | first => cases own
  | late => cases own
  | set => cases own
  | cancel => cases own
  | trigger => cases own

/-- What others do moves no fiber. -/
theorem location_of_others {io after : DoIo} {a : DoIo.Action} (acted : DoIo.Acts timeout io a after)
    (others : ofOthers a = true) : after.location = io.location := by
  cases acted with
  | expire => rfl
  | first => rfl
  | late => rfl
  | set => rfl
  | cancel => exact DoIo.location_cancelEvent
  | trigger => rfl
  | _ => cases others

/-- A step of the call or of a thread that has to do with it, with what was read to get there. -/
inductive Acts (timeout : BitVec 64) (s : Connect) : Action → Connect → Prop
  | answered {n : ℤ} {inProgress : Bool} : s.stage = .connecting → ¬ (n = -1 ∧ inProgress) →
      Acts timeout s (.connect n inProgress) { s with stage := .returned n none }
  | inProgress : s.stage = .connecting → Acts timeout s (.connect (-1) true) { s with stage := .waiting }
  | lock {i : ℕ} {state : DoIo.Callback.State} : s.io.timers[i]? = some .handedOut → state ≠ .pending →
      Acts timeout s (.wait (.lock i)) { s with io := s.io.setTimer i state }
  | wait {a : DoIo.Action} {io : DoIo} : s.stage = .waiting ∨ ofOthers a = true → a.outcome? = none →
      DoIo.Acts timeout s.io a io → Acts timeout s (.wait a) { stage := onward s.stage io.location, io }
  | unknown : s.stage = .asking → Acts timeout s (.getsockopt none) { s with stage := .returned (-1) none }
  | connected : s.stage = .asking → Acts timeout s (.getsockopt (some 0)) { s with stage := .returned 0 none }
  | failed {error : ℕ} : s.stage = .asking → error ≠ 0 →
      Acts timeout s (.getsockopt (some error)) { s with stage := .returned (-1) (some error) }

theorem acts_of_step (step : (machine timeout).Step s action t) : Acts timeout s action t := by
  have ran : s.perform timeout action = some t := step
  cases action with
  | connect n inProgress =>
    simp only [perform] at ran
    split at ran
    · next staged =>
      cases ran
      split_ifs with waits
      · obtain ⟨rfl, rfl⟩ := waits
        exact .inProgress staged
      · exact .answered staged waits
    · cases ran
  | wait a =>
    have waited (own : s.stage = .waiting ∨ ofOthers a = true) (uncalled : a.outcome? = none)
        (ran : (s.io.perform timeout a).map (fun io => { stage := onward s.stage io.location, io : Connect }) = some t) :
        Acts timeout s (.wait a) t := by
      obtain ⟨io, did, rfl⟩ := Option.map_eq_some_iff.mp ran
      exact .wait own uncalled (DoIo.acts_of_step did)
    cases a with
    | call => cases ran
    | lock i =>
      simp only [perform] at ran
      split_ifs at ran with handedOut
      · cases ran
        exact .lock handedOut nofun
      · cases ran
        exact .lock handedOut nofun
    | _ =>
      simp only [perform] at ran
      split_ifs at ran with own
      exact waited own rfl ran
  | getsockopt error =>
    simp only [perform] at ran
    split at ran
    · next staged =>
      cases ran
      obtain _ | _ | error := error
      · exact .unknown staged
      · exact .connected staged
      · exact .failed staged (Nat.succ_ne_zero error)
    · cases ran

namespace Kept

theorem init : Kept [] {} where
  accounted := .fresh (.inr rfl)
  stands := .connecting

theorem acts (kept : Kept actions s) (acted : Acts timeout s action t) : Kept (actions ++ [action]) t := by
  have accounted := kept.accounted
  have stands := kept.stands
  have here {b : Action} : b ∈ actions ++ [b] := List.mem_append_right _ List.mem_cons_self
  cases acted with
  | answered staged final =>
    rw [staged] at stands
    refine ⟨by rwa [waits_other actions rfl], ?_⟩
    cases located : s.io.location with
    | arming => exact .returned rfl rfl (.answered here final)
    | _ =>
      rw [located] at stands
      cases stands
  | inProgress staged =>
    rw [staged] at stands
    refine ⟨by rwa [waits_other actions rfl], ?_⟩
    cases located : s.io.location with
    | arming => exact .waiting trivial
    | _ =>
      rw [located] at stands
      cases stands
  | @lock i state handedOut later =>
    refine ⟨?_, stands.snoc⟩
    rw [waits_wait]
    exact accounted.setTimer rfl rfl rfl accounted.later handedOut ⟨rfl, nofun⟩ later
      (List.mem_append_left _ (accounted.expired i (.inl handedOut)))
  | @wait a io own uncalled acted =>
    refine ⟨?_, ?_⟩
    · rw [waits_wait]
      exact accounted.acts acted
    · cases others : ofOthers a with
      | true =>
        have same := location_of_others acted others
        change Stands _ (onward s.stage io.location) io.location
        rw [same, stands.onward]
        exact stands.snoc
      | false =>
        rw [others] at own
        have waiting := own.resolve_right Bool.false_ne_true
        rw [waiting] at stands
        have after := stands.wait accounted acted others uncalled
        change Stands _ (onward s.stage io.location) io.location
        rwa [waiting]
  | unknown staged =>
    rw [staged] at stands
    obtain ⟨waits, timer, -⟩ := stands.asked
    exact ⟨by rwa [waits_other actions rfl], .returned waits timer (.unknown here)⟩
  | connected staged =>
    rw [staged] at stands
    obtain ⟨waits, timer, waited⟩ := stands.asked
    refine ⟨by rwa [waits_other actions rfl], .returned waits timer (.connected here ?_)⟩
    exact waited.imp (List.mem_append_left _) (List.mem_append_left _)
  | failed staged nonzero =>
    rw [staged] at stands
    obtain ⟨waits, timer, -⟩ := stands.asked
    exact ⟨by rwa [waits_other actions rfl], .returned waits timer (.failed here nonzero)⟩

end Kept

end Sylar.Connect
