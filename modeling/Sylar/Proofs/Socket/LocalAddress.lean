import Mathlib.Tactic.SplitIfs
import Sylar.Model.Socket.Socket

/-! # When the cached local address is the present one

A `Socket` keeps the first local address it reads, beyond the descriptor it read it from. Only `reconnect` empties
the cache. The other two operations that give a descriptor an address leave the cache as it is, and what they find
in it decides whether a connected `Socket` answers for its present descriptor.
-/

namespace Sylar.Socket

variable {s t : Socket} {calls probe : Calls} {addr name : Address} {timeout_ms : BitVec 64}

/-- Connected, `getLocalAddress` returns the local address of the descriptor behind `m_sock`, unless `getsockname`
has none to tell. -/
def Current (s : Socket) : Prop :=
  s.m_isConnected = true → ∀ calls,
    (∃ d, s.descriptor = some d ∧ (s.getLocalAddress calls).1 = d.name) ∨
    s.getsockname calls = none ∧ (s.getLocalAddress calls).1 = UnknownAddress.new s.m_family

/-- The step gets as far as `::bind` or `::connect`. -/
def Reaches (s : Socket) (calls : Calls) (addr : Address) : Prop :=
  (s.isValid = true ∨ calls.socket ≠ none) ∧ addr.getFamily = s.m_family

/-- The local address of the descriptor behind a `bind` or `connect` that succeeds, when the kernel has chosen `name`
for it: a descriptor that is bound or connected has one. -/
def given (s : Socket) (name : Address) : Address :=
  match s.descriptor with
  | some d => (d.assign name).name
  | none => name

/-- A `connect` that succeeds, and a `bind` that succeeds on a connected `Socket`, finds no local address in the cache
but the one the descriptor is left with. -/
def Fresh (s : Socket) (event : Action × Calls) : Prop :=
  match event.1 with
  | .connect addr timeout_ms => s.Reaches event.2 addr → ∀ name, connecting event.2 timeout_ms = some name →
      ∀ cached, s.m_localAddress = some cached → cached = s.given name
  | .bind addr probe => s.m_isConnected = true → s.Reaches event.2 addr → listens probe addr = false →
      ∀ name, event.2.bind = some name → ∀ cached, s.m_localAddress = some cached → cached = s.given name
  | _ => True

/-! ## The invariant -/

/-- A valid `Socket` has an open descriptor, and one that counts as connected without a descriptor has read no
address. -/
structure Sound (s : Socket) : Prop where
  none_open : s.kernel (-1) = none
  valid : s.isValid = true → ∃ d, s.descriptor = some d
  unread : s.isValid = false → s.m_isConnected = true → s.m_localAddress = none

/-- What is in the cache of a connected `Socket` is the address of its descriptor. -/
def Right (s : Socket) : Prop :=
  s.m_isConnected = true → ∀ cached, s.m_localAddress = some cached → ∃ d, s.descriptor = some d ∧ cached = d.name

theorem isValid_eq_true : s.isValid = true ↔ s.m_sock ≠ -1 := decide_eq_true_iff

theorem isValid_eq_false : s.isValid = false ↔ s.m_sock = -1 := by
  rw [isValid, decide_eq_false_iff_not, not_not]

theorem Sound.descriptor_of_invalid (sound : Sound s) (invalid : s.isValid = false) : s.descriptor = none := by
  rw [descriptor, isValid_eq_false.mp invalid]
  exact sound.none_open

theorem right_of_disconnected (disconnected : s.m_isConnected = false) : Right s := by
  intro connected
  cases disconnected.symm.trans connected

theorem right_of_unread (unread : s.m_localAddress = none) : Right s := by
  intro _ cached here
  cases unread.symm.trans here

/-! ## Reading the address -/

/-- Reading an address leaves it in the cache. -/
theorem getLocalAddress_snd :
    (s.getLocalAddress calls).2 = { s with m_localAddress := s.m_localAddress.or (s.getsockname calls) } := by
  unfold getLocalAddress
  split
  next cached here => rw [here, Option.some_or, ← here]
  next unread =>
    rw [unread, Option.none_or]
    split
    next untold => rw [untold, ← unread]
    next result told => rw [told]

theorem getLocalAddress_fst :
    (s.getLocalAddress calls).1 =
      (s.m_localAddress.or (s.getsockname calls)).getD (UnknownAddress.new s.m_family) := by
  unfold getLocalAddress
  cases s.m_localAddress with
  | some cached => rfl
  | none => cases s.getsockname calls <;> rfl

theorem getRemoteAddress_snd :
    (s.getRemoteAddress calls).2 = { s with m_remoteAddress := s.m_remoteAddress.or calls.getpeername } := by
  unfold getRemoteAddress
  split
  next cached here => rw [here, Option.some_or, ← here]
  next unread =>
    rw [unread, Option.none_or]
    split
    next untold => rw [untold, ← unread]
    next result told => rw [told]

theorem getRemoteAddress_of_some (calls : Calls) (known : s.m_remoteAddress = some addr) : (s.getRemoteAddress calls).2 = s := by
  rw [getRemoteAddress_snd, known, Option.some_or, ← known]

theorem getsockname_eq_some : s.getsockname calls = some name ↔
    calls.getsockname = true ∧ ∃ d, s.descriptor = some d ∧ d.name = name := by
  unfold getsockname
  split_ifs with answered
  · rw [Option.map_eq_some_iff, and_iff_right answered]
  · exact iff_of_false nofun fun both => answered both.1

/-- The two ways to say that the cache is right. -/
theorem current_iff (sound : Sound s) : Current s ↔ Right s := by
  constructor
  · intro current connected cached here
    cases valid : s.isValid with
    | false => cases (sound.unread valid connected).symm.trans here
    | true =>
      obtain ⟨d, open_⟩ := sound.valid valid
      have asked := current connected ⟨none, none, none, none, true, none⟩
      rw [getLocalAddress_fst, here, Option.some_or, Option.getD_some] at asked
      refine ⟨d, open_, ?_⟩
      rcases asked with ⟨other, same, answer⟩ | ⟨untold, _⟩
      · rw [answer, Option.some.inj (open_.symm.trans same)]
      · have told : s.getsockname ⟨none, none, none, none, true, none⟩ = some d.name :=
          getsockname_eq_some.mpr ⟨rfl, d, open_, rfl⟩
        cases untold.symm.trans told
  · intro right connected calls
    rw [getLocalAddress_fst]
    cases here : s.m_localAddress with
    | some cached => exact .inl (right connected cached here)
    | none =>
      cases told : s.getsockname calls with
      | none => exact .inr ⟨rfl, rfl⟩
      | some result =>
        obtain ⟨_, d, open_, same⟩ := getsockname_eq_some.mp told
        exact .inl ⟨d, open_, same.symm⟩

namespace Sound

theorem getLocalAddress (sound : Sound s) : Sound (s.getLocalAddress calls).2 := by
  rw [getLocalAddress_snd]
  refine ⟨sound.none_open, sound.valid, fun invalid connected => ?_⟩
  have closed := sound.descriptor_of_invalid invalid
  change s.m_localAddress.or _ = none
  rw [sound.unread invalid connected, Option.none_or, Socket.getsockname, closed, Option.map_none, ite_self]

end Sound

theorem Right.getLocalAddress (right : Right s) : Right (s.getLocalAddress calls).2 := by
  rw [getLocalAddress_snd]
  intro connected cached here
  rcases Option.or_eq_some_iff.mp here with old | ⟨_, read⟩
  · exact right connected cached old
  · obtain ⟨_, d, open_, same⟩ := getsockname_eq_some.mp read
    exact ⟨d, open_, same.symm⟩

/-! ## The descriptor -/

/-- A new descriptor changes nothing but `m_sock` and what is open. -/
theorem newSock_frame (calls : Calls) (s : Socket) : ∃ m_sock kernel, s.newSock calls = { s with m_sock, kernel } := by
  unfold newSock
  split
  · exact ⟨_, _, rfl⟩
  · exact ⟨-1, s.kernel, rfl⟩

/-- The descriptor that `newSock` has made is not bound. -/
theorem newSock_valid (valid : (s.newSock calls).isValid = true) :
    ∃ fd name, calls.socket = some (fd, name) ∧ (s.newSock calls).descriptor = some ⟨name, false⟩ := by
  cases made : calls.socket with
  | none =>
    rw [isValid_eq_true, newSock, made] at valid
    exact absurd rfl valid
  | some pair =>
    refine ⟨pair.1, pair.2, rfl, ?_⟩
    rw [newSock, made]
    exact Function.update_self _ _ _

theorem newSock_none_open (closed : s.kernel (-1) = none) : (s.newSock calls).kernel (-1) = none := by
  unfold newSock
  split
  next fd name _ =>
    change Function.update s.kernel (fd : ℤ) (some ⟨name, false⟩) (-1) = none
    rw [Function.update_of_ne (by omega), closed]
  next => exact closed

/-- The first lines of `bind` and `connect`. -/
def opened (calls : Calls) (s : Socket) : Socket := if s.isValid then s else s.newSock calls

theorem opened_of_valid (valid : s.isValid = true) : opened calls s = s := if_pos valid

theorem opened_of_invalid (invalid : s.isValid = false) : opened calls s = s.newSock calls :=
  if_neg (Bool.eq_false_iff.mp invalid)

theorem opened_frame (calls : Calls) (s : Socket) : ∃ m_sock kernel, opened calls s = { s with m_sock, kernel } := by
  unfold opened
  split_ifs
  · exact ⟨s.m_sock, s.kernel, rfl⟩
  · exact newSock_frame calls s

theorem opened_m_isConnected : (opened calls s).m_isConnected = s.m_isConnected := by
  obtain ⟨m_sock, kernel, frame⟩ := opened_frame calls s
  rw [frame]

theorem opened_m_localAddress : (opened calls s).m_localAddress = s.m_localAddress := by
  obtain ⟨m_sock, kernel, frame⟩ := opened_frame calls s
  rw [frame]

theorem opened_m_remoteAddress : (opened calls s).m_remoteAddress = s.m_remoteAddress := by
  obtain ⟨m_sock, kernel, frame⟩ := opened_frame calls s
  rw [frame]

theorem opened_m_family : (opened calls s).m_family = s.m_family := by
  obtain ⟨m_sock, kernel, frame⟩ := opened_frame calls s
  rw [frame]

theorem Sound.opened (sound : Sound s) : Sound (opened calls s) := by
  cases before : s.isValid with
  | true =>
    rw [opened_of_valid before]
    exact sound
  | false =>
    refine ⟨?_, fun valid => ?_, fun _ connected => ?_⟩
    · rw [opened_of_invalid before]
      exact newSock_none_open sound.none_open
    · rw [opened_of_invalid before] at valid ⊢
      obtain ⟨_, _, _, open_⟩ := newSock_valid valid
      exact ⟨_, open_⟩
    · rw [opened_m_isConnected] at connected
      rw [opened_m_localAddress]
      exact sound.unread before connected

theorem Right.opened (right : Right s) (sound : Sound s) : Right (opened calls s) := by
  cases before : s.isValid with
  | true =>
    rw [opened_of_valid before]
    exact right
  | false =>
    intro connected cached here
    rw [opened_m_isConnected] at connected
    rw [opened_m_localAddress, sound.unread before connected] at here
    cases here

theorem opened_isValid : (opened calls s).isValid = true ↔ s.isValid = true ∨ calls.socket ≠ none := by
  cases valid : s.isValid with
  | true =>
    rw [opened_of_valid valid]
    exact iff_of_true valid (Or.inl rfl)
  | false =>
    rw [opened_of_invalid valid]
    constructor
    · intro opened
      obtain ⟨fd, name, made, _⟩ := newSock_valid opened
      exact Or.inr (made ▸ nofun)
    · rintro (absent | made)
      · cases absent
      · obtain ⟨pair, made⟩ := Option.ne_none_iff_exists'.mp made
        rw [isValid_eq_true, newSock, made]
        change (pair.1 : ℤ) ≠ -1
        omega

/-- The descriptor after the first lines, once it is bound or connected. -/
theorem opened_given (sound : Sound s) (valid : (opened calls s).isValid = true) :
    ∃ d, (opened calls s).descriptor = some d ∧ (d.assign name).name = s.given name := by
  cases before : s.isValid with
  | true =>
    rw [opened_of_valid before] at valid ⊢
    obtain ⟨d, open_⟩ := sound.valid valid
    refine ⟨d, open_, ?_⟩
    rw [given, open_]
  | false =>
    rw [opened_of_invalid before] at valid ⊢
    obtain ⟨fd, _, _, open_⟩ := newSock_valid valid
    refine ⟨_, open_, ?_⟩
    rw [given, sound.descriptor_of_invalid before]
    rfl

/-! ## Steps -/

/-- Binding or connecting, once it has succeeded, and reading the address. -/
def settle (calls : Calls) (name : Address) (connected : Bool) (s : Socket) : Socket :=
  (Socket.getLocalAddress calls { s.assign name with m_isConnected := connected }).2

section Settle

variable {connected : Bool} {d : KernelSocket}

theorem assign_descriptor (open_ : s.descriptor = some d) :
    Socket.descriptor { s.assign name with m_isConnected := connected } = some (d.assign name) := by
  change Function.update s.kernel s.m_sock (s.descriptor.map (·.assign name)) s.m_sock = _
  rw [Function.update_self, open_, Option.map_some]

theorem sound_settle (sound : Sound s) (valid : s.isValid = true) : Sound (settle calls name connected s) := by
  apply Sound.getLocalAddress
  obtain ⟨d, open_⟩ := sound.valid valid
  have different : -1 ≠ s.m_sock := (isValid_eq_true.mp valid).symm
  constructor
  · exact (Function.update_of_ne different _ _).trans sound.none_open
  · intro _
    exact ⟨d.assign name, assign_descriptor open_⟩
  · intro invalid
    cases valid.symm.trans invalid

/-- A connected `Socket` is right afterwards exactly if it has not cached any other address. -/
theorem right_settle_iff (open_ : s.descriptor = some d) : Right (settle calls name true s) ↔
    ∀ cached, s.m_localAddress = some cached → cached = (d.assign name).name := by
  have assigned : Socket.descriptor { s.assign name with m_isConnected := true } = some (d.assign name) :=
    assign_descriptor open_
  constructor
  · intro right cached here
    rw [settle, getLocalAddress_snd] at right
    have kept : s.m_localAddress.or (getsockname calls { s.assign name with m_isConnected := true }) = some cached := by
      rw [here, Option.some_or]
    obtain ⟨d', same, answer⟩ := right rfl cached kept
    rw [answer, Option.some.inj (assigned.symm.trans same)]
  · intro fresh
    apply Right.getLocalAddress
    intro _ cached here
    exact ⟨_, assigned, fresh cached here⟩

end Settle

/-- Closing twice is closing once. -/
theorem close_snd : s.close.2 = if s.m_sock = -1 then { s with m_isConnected := false }
    else { s with m_sock := -1, m_isConnected := false, kernel := Function.update s.kernel s.m_sock none } := by
  unfold close
  by_cases invalid : s.m_sock = -1
  · rw [if_pos invalid]
    cases connected : s.m_isConnected with
    | false =>
      rw [if_pos (by simp [invalid]), ← connected]
    | true =>
      rw [if_neg (by simp)]
      exact congrArg Prod.snd (if_neg (not_not.mpr invalid))
  · rw [if_neg invalid, if_neg (by simp [invalid])]
    exact congrArg Prod.snd (if_pos invalid)

theorem close_m_isConnected : s.close.2.m_isConnected = false := by
  rw [close_snd]
  split_ifs <;> rfl

theorem Sound.close (sound : Sound s) : Sound s.close.2 := by
  have disconnected : s.close.2.m_isConnected = false := close_m_isConnected
  rw [close_snd] at disconnected ⊢
  refine ⟨?_, ?_, fun _ connected => ?_⟩
  · split_ifs with invalid
    · exact sound.none_open
    · exact (Function.update_of_ne (Ne.symm invalid) _ _).trans sound.none_open
  · split_ifs with invalid
    · exact sound.valid
    · exact fun valid => absurd rfl (isValid_eq_true.mp valid)
  · cases disconnected.symm.trans connected

/-! ## What a step comes to -/

theorem reaches_iff (s : Socket) (calls : Calls) (addr : Address) : s.Reaches calls addr ↔
    (opened calls s).isValid = true ∧ addr.getFamily = (opened calls s).m_family := by
  rw [Reaches, opened_isValid, opened_m_family]

/-- The ways of a `connect`, once the remote address is there. -/
inductive Connects (calls : Calls) (addr : Address) (timeout_ms : BitVec 64) (s : Socket) : Socket → Prop
  | stops : ¬ s.Reaches calls addr → Connects calls addr timeout_ms s (opened calls s)
  | fails : s.Reaches calls addr → connecting calls timeout_ms = none →
      Connects calls addr timeout_ms s (opened calls s).close.2
  | succeeds {name : Address} : s.Reaches calls addr → connecting calls timeout_ms = some name →
      Connects calls addr timeout_ms s (settle calls name true (opened calls s))

theorem connects_connect (s : Socket) (calls : Calls) (addr : Address) (timeout_ms : BitVec 64) :
    Connects calls addr timeout_ms { s with m_remoteAddress := some addr } (s.connect calls addr timeout_ms).2 := by
  have known : (opened calls { s with m_remoteAddress := some addr }).m_remoteAddress = some addr :=
    opened_m_remoteAddress
  have reaches := reaches_iff { s with m_remoteAddress := some addr } calls addr
  dsimp only [connect]
  rw [← opened]
  split_ifs with invalid different
  · refine .stops fun reached => ?_
    rw [(reaches.mp reached).1] at invalid
    cases invalid
  · exact .stops fun reached => different (reaches.mp reached).2
  · have valid : (opened calls { s with m_remoteAddress := some addr }).isValid = true := by
      simpa using invalid
    have reached := reaches.mpr ⟨valid, not_not.mp different⟩
    split
    next failed => exact .fails reached failed
    next name succeeded =>
      have same := getRemoteAddress_of_some calls
        (s := { (opened calls { s with m_remoteAddress := some addr }).assign name with m_isConnected := true }) known
      rw [same]
      exact .succeeds reached succeeded

/-- The ways of a `bind`. -/
inductive Binds (calls probe : Calls) (addr : Address) (s : Socket) : Socket → Prop
  | stops : (s.Reaches calls addr → listens probe addr = false → calls.bind = none) →
      Binds calls probe addr s (opened calls s)
  | succeeds {name : Address} : s.Reaches calls addr → listens probe addr = false → calls.bind = some name →
      Binds calls probe addr s (settle calls name (opened calls s).m_isConnected (opened calls s))

theorem binds_bind : Binds calls probe addr s (s.bind calls probe addr).2 := by
  have reaches := reaches_iff s calls addr
  unfold bind
  rw [← opened]
  dsimp only
  split_ifs with invalid different found
  · refine .stops fun reached => ?_
    rw [(reaches.mp reached).1] at invalid
    cases invalid
  · exact .stops fun reached => absurd (reaches.mp reached).2 different
  · exact .stops fun _ free => by cases found.symm.trans free
  · have valid : (opened calls s).isValid = true := by simpa using invalid
    have reached := reaches.mpr ⟨valid, not_not.mp different⟩
    split
    next failed => exact .stops fun _ _ => failed
    next name succeeded => exact .succeeds reached (Bool.eq_false_iff.mpr found) succeeded

/-! ## Each step keeps the invariant -/

theorem Sound.reaches (sound : Sound s) (reached : s.Reaches calls addr) (name : Address) :
    ∃ d, (Socket.opened calls s).descriptor = some d ∧ (d.assign name).name = s.given name :=
  opened_given sound ((reaches_iff _ _ _).mp reached).1

theorem Sound.connects (sound : Sound s) (connects : Connects calls addr timeout_ms s t) : Sound t := by
  cases connects with
  | stops _ => exact sound.opened
  | fails _ _ => exact sound.opened.close
  | succeeds reached _ => exact sound_settle sound.opened ((reaches_iff _ _ _).mp reached).1

theorem Sound.binds (sound : Sound s) (binds : Binds calls probe addr s t) : Sound t := by
  cases binds with
  | stops _ => exact sound.opened
  | succeeds reached _ _ => exact sound_settle sound.opened ((reaches_iff _ _ _).mp reached).1

/-- A `connect` leaves a right `Socket` right exactly if it is fresh. -/
theorem right_connects_iff (sound : Sound s) (right : Right s) (connects : Connects calls addr timeout_ms s t) :
    Right t ↔ Fresh s (.connect addr timeout_ms, calls) := by
  cases connects with
  | stops stopped => exact iff_of_true (right.opened sound) fun reached => absurd reached stopped
  | fails _ failed =>
    refine iff_of_true (right_of_disconnected close_m_isConnected) fun _ name succeeded => ?_
    cases failed.symm.trans succeeded
  | @succeeds name reached succeeded =>
    obtain ⟨d, open_, same⟩ := sound.reaches reached name
    rw [right_settle_iff open_, opened_m_localAddress, same]
    constructor
    · intro fresh _ other chosen
      obtain rfl : name = other := Option.some.inj (succeeded.symm.trans chosen)
      exact fresh
    · intro fresh
      exact fresh reached name succeeded

theorem right_binds_iff (sound : Sound s) (right : Right s) (binds : Binds calls probe addr s t) :
    Right t ↔ Fresh s (.bind addr probe, calls) := by
  cases binds with
  | stops stopped =>
    refine iff_of_true (right.opened sound) fun _ reached free name succeeded => ?_
    cases (stopped reached free).symm.trans succeeded
  | @succeeds name reached free succeeded =>
    obtain ⟨d, open_, same⟩ := sound.reaches reached name
    rw [opened_m_isConnected]
    cases connected : s.m_isConnected with
    | false =>
      refine iff_of_true ?_ fun isConnected => ?_
      · rw [settle, getLocalAddress_snd]
        exact right_of_disconnected rfl
      · cases connected.symm.trans isConnected
    | true =>
      rw [right_settle_iff open_, opened_m_localAddress, same]
      constructor
      · intro fresh _ _ _ other chosen
        obtain rfl : name = other := Option.some.inj (succeeded.symm.trans chosen)
        exact fresh
      · intro fresh
        exact fresh connected reached free name succeeded

theorem machine_step {event : Action × Calls} :
    machine.Step s event t ↔ s.perform event.2 event.1 = t := Option.some_inj

/-- The step lemma: what holds of every step, and what of exactly the fresh ones. -/
theorem step_spec {event : Action × Calls} (sound : Sound s) (step : machine.Step s event t) :
    Sound t ∧ (Right s → (Right t ↔ Fresh s event)) := by
  obtain ⟨action, calls⟩ := event
  obtain rfl := machine_step.mp step
  cases action with
  | bind addr probe => exact ⟨sound.binds binds_bind, fun right => right_binds_iff sound right binds_bind⟩
  | connect addr timeout_ms =>
    -- the remote address is of no importance to either
    have ready : Sound { s with m_remoteAddress := some addr } := ⟨sound.none_open, sound.valid, sound.unread⟩
    have connects := connects_connect s calls addr timeout_ms
    refine ⟨ready.connects connects, fun right => ?_⟩
    exact right_connects_iff (s := { s with m_remoteAddress := some addr }) ready right connects
  | reconnect timeout_ms =>
    change Sound (s.reconnect calls timeout_ms).2 ∧ (_ → (Right (s.reconnect calls timeout_ms).2 ↔ True))
    unfold reconnect
    split
    next => exact ⟨sound, fun right => iff_of_true right trivial⟩
    next addr _ =>
      have ready : Sound { s with m_localAddress := none, m_remoteAddress := some addr } :=
        ⟨sound.none_open, sound.valid, fun _ _ => rfl⟩
      have connects := connects_connect { s with m_localAddress := none } calls addr timeout_ms
      refine ⟨ready.connects connects, fun _ => iff_of_true ?_ trivial⟩
      refine (right_connects_iff ready (right_of_unread rfl) connects).mpr fun _ _ _ cached here => ?_
      cases here
  | close => exact ⟨sound.close, fun _ => iff_of_true (right_of_disconnected close_m_isConnected) trivial⟩
  | getLocalAddress => exact ⟨sound.getLocalAddress, fun right => iff_of_true right.getLocalAddress trivial⟩

/-! ## Runs -/

theorem sound_new {family : BitVec 32} : Sound (new family) where
  none_open := rfl
  valid := nofun
  unread := nofun

theorem made_spec (made : Made s) : Sound s ∧ Right s := by
  cases made with
  | new family => exact ⟨sound_new, nofun⟩
  | createUDP calls family =>
    have unread : ((new family).newSock calls).m_localAddress = none :=
      opened_m_localAddress (s := new family)
    have sound : Sound ((new family).newSock calls) := sound_new.opened
    exact ⟨⟨sound.none_open, sound.valid, fun _ _ => unread⟩, right_of_unread unread⟩
  | @accept calls family newsock name ctx s accepted =>
    unfold accept at accepted
    split_ifs at accepted
    obtain rfl := Option.some.inj accepted
    rw [getRemoteAddress_snd]
    generalize fresh : ({ new family with
      m_sock := newsock
      m_isConnected := true
      kernel := Function.update (fun _ => none) ↑newsock (some ⟨name, true⟩) } : Socket) = s
    have unread : s.m_localAddress = none := by rw [← fresh]; rfl
    have sound : Sound s := by
      subst fresh
      refine ⟨?_, fun _ => ⟨⟨name, true⟩, ?_⟩, fun _ _ => rfl⟩
      · have different : (-1 : ℤ) ≠ newsock := by omega
        exact Function.update_of_ne different (some ⟨name, true⟩) (fun _ => none)
      · exact Function.update_self (newsock : ℤ) _ (fun _ => none)
    have read : Sound (s.getLocalAddress calls).2 := sound.getLocalAddress
    exact ⟨⟨read.none_open, read.valid, read.unread⟩, (right_of_unread unread).getLocalAddress⟩

theorem functional {event : Action × Calls} {u : Socket} (step : machine.Step s event t)
    (other : machine.Step s event u) : u = t := by
  rw [← machine_step.mp step, ← machine_step.mp other]

theorem sound_of_path {events : List (Action × Calls)} (made : Made s) (path : machine.Path s events t) : Sound t :=
  path.preserves (fun _ _ _ sound step => (step_spec sound step).1) (made_spec made).1

/-- Along a run of a `Socket`, every state in which it is connected answers with the local address of its present
descriptor exactly if every step of the run is fresh. -/
theorem always_current_iff {events : List (Action × Calls)} (made : machine.Init s)
    (path : machine.Path s events t) :
    (∀ before after mid, events = before ++ after → machine.Path s before mid → Current mid) ↔
      (machine.restrict Fresh).Path s events t := by
  obtain ⟨sound, right⟩ := made_spec made
  have spec := Machine.Path.always_iff (fun _ _ _ _ => functional) (fun _ _ _ sound step => (step_spec sound step).1)
    (fun _ _ _ sound right step => (step_spec sound step).2 right) path sound right
  rw [← spec]
  refine forall₃_congr fun before after mid => ?_
  constructor
  · intro current split path
    exact (current_iff (sound_of_path made path)).mp (current split path)
  · intro right split path
    exact (current_iff (sound_of_path made path)).mpr (right split path)

/-- An address of the loopback network. -/
def loopback (port : BitVec 16) : Address := .ipv4 ⟨AF_INET, port, 0x100007f, .replicate 8 0⟩

/-- A descriptor that connects with this local address. -/
def connectsFrom (fd : ℕ) (name : Address) : Calls := ⟨some (fd, name), none, some name, none, true, none⟩

/-- Closed and reconnected, a `Socket` answers for its new descriptor. -/
theorem always_current_reconnected : ∃ events t, machine.Path (new 2) events t ∧ t.m_isConnected = true ∧
    t.descriptor = some ⟨loopback 6, true⟩ ∧
    ∀ before after mid, events = before ++ after → machine.Path (new 2) before mid → Current mid := by
  have path : (machine.restrict Fresh).Path (new 2)
      [(.connect (loopback 80) (-1), connectsFrom 3 (loopback 5)), (.close, connectsFrom 3 (loopback 5)),
        (.reconnect (-1), connectsFrom 3 (loopback 6))] _ :=
    .cons ⟨fun _ _ _ _ => nofun, rfl⟩ <| .cons ⟨trivial, rfl⟩ <| .cons ⟨trivial, rfl⟩ <| .nil _
  exact ⟨_, _, path.of_restrict, rfl, rfl, (always_current_iff (.new 2) path.of_restrict).mpr path⟩

/-- Closed and connected again, it answers with the address of the descriptor that was closed, whatever the system
calls return. -/
theorem stale_after_close : ∃ events t d, machine.Path (new 2) events t ∧ t.m_isConnected = true ∧
    t.descriptor = some d ∧ ∀ calls, (t.getLocalAddress calls).1 ≠ d.name := by
  have path : machine.Path (new 2)
      [(.connect (loopback 80) (-1), connectsFrom 3 (loopback 5)), (.close, connectsFrom 3 (loopback 5)),
        (.connect (loopback 80) (-1), connectsFrom 3 (loopback 6))] _ :=
    .cons rfl <| .cons rfl <| .cons rfl <| .nil _
  have different : loopback 5 ≠ loopback 6 := by decide
  exact ⟨_, _, ⟨loopback 6, true⟩, path, rfl, rfl, fun _ => different⟩

end Sylar.Socket
