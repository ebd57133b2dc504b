import Mathlib.Data.List.Infix
import Sylar.Model.Config.Config
import Sylar.Proofs.Config.Listeners

/-! # What a tree does to the variables

A tree is written down as the nodes that can be reached by names, in pre-order. Each variable goes through the
conversions of the nodes that have its name, and through nothing else.
-/

namespace Sylar.Config

open ConfigVar (Notification)
open YAML (Node)

/-! ## The nodes and their paths -/

mutual

/-- The nodes of a tree in pre-order, with the keys they are reached by. -/
def preorder : Node → List (List Text × Node)
  | .map entries => ([], .map entries) :: preorderEntries entries
  | .null => [([], .null)]
  | .scalar text => [([], .scalar text)]
  | .sequence items => [([], .sequence items)]

def preorderEntries : List (Text × Node) → List (List Text × Node)
  | [] => []
  | (key, node) :: entries => ((preorder node).map fun path => (key :: path.1, path.2)) ++ preorderEntries entries

end

/-- The keys of a path, joined behind a name. -/
def joined (pre : Text) (keys : List Text) : Text := keys.foldl member pre

/-- At every step of the path the keys so far make a name. -/
def isPath (pre : Text) (keys : List Text) : Bool := keys.inits.all fun keys => isName (joined pre keys)

theorem isPath_nil (pre : Text) : isPath pre [] = isName pre := by
  simp [isPath, joined]

theorem isPath_cons (pre key : Text) (keys : List Text) :
    isPath pre (key :: keys) = (isName pre && isPath (member pre key) keys) := by
  simp [isPath, joined, List.all_map, Function.comp_def]

theorem isName_of_isPath {pre : Text} {keys : List Text} (valid : isPath pre keys = true) :
    isName (joined pre keys) = true :=
  List.all_eq_true.mp valid keys ((List.mem_inits keys keys).mpr (List.prefix_refl _))

/-- Nothing is listed below a name that is none. -/
theorem isPath_of_not_isName {pre : Text} (invalid : isName pre = false) (keys : List Text) :
    isPath pre keys = false := by
  cases keys with
  | nil => rw [isPath_nil, invalid]
  | cons key keys => rw [isPath_cons, invalid, Bool.false_and]

/-- What is listed of a tree under a name. -/
def listed (pre : Text) (paths : List (List Text × Node)) : List (Text × Node) :=
  (paths.filter fun path => isPath pre path.1).map fun path => (joined pre path.1, path.2)

theorem listed_root (pre : Text) (node : Node) : listed pre [([], node)] = if isName pre then [(pre, node)] else
    [] := by
  unfold listed
  cases named : isName pre <;> simp [isPath_nil, joined, named]

theorem listed_append (pre : Text) (one other : List (List Text × Node)) :
    listed pre (one ++ other) = listed pre one ++ listed pre other := by
  simp [listed]

theorem listed_key {pre : Text} (named : isName pre = true) (key : Text) (paths : List (List Text × Node)) :
    listed pre (paths.map fun path => (key :: path.1, path.2)) = listed (member pre key) paths := by
  simp [listed, List.filter_map, Function.comp_def, isPath_cons, named, joined]

theorem listed_of_not_isName {pre : Text} (invalid : isName pre = false) (paths : List (List Text × Node)) :
    listed pre paths = [] := by
  simp [listed, isPath_of_not_isName invalid]

mutual

/-- `ListAllMember` lists the nodes in pre-order, with the paths that are names at every step. -/
theorem listAllMember_eq (pre : Text) (node : Node) : listAllMember pre node = listed pre (preorder node) := by
  cases node with
  | null => rw [listAllMember, preorder, listed_root]
  | scalar text => rw [listAllMember, preorder, listed_root]
  | sequence items => rw [listAllMember, preorder, listed_root]
  | map entries =>
    have split : listed pre (preorder (.map entries)) =
        listed pre [([], .map entries)] ++ listed pre (preorderEntries entries) := listed_append pre [_] _
    rw [listAllMember, split, listed_root]
    cases named : isName pre with
    | false => simp [listed_of_not_isName named]
    | true => simp [listEntries_eq named entries]

theorem listEntries_eq {pre : Text} (named : isName pre = true) (entries : List (Text × Node)) :
    listEntries pre entries = listed pre (preorderEntries entries) := by
  match entries with
  | [] => rfl
  | (key, node) :: entries =>
    rw [listEntries, preorderEntries, listed_append, listed_key named, listAllMember_eq, listEntries_eq named entries]

end

/-- The nodes whose path is the name. The empty name is passed over. -/
def nodesOf (name : Text) (root : Node) : List Node :=
  if name = [] then []
  else ((preorder root).filter fun path => isPath [] path.1 ∧ joined [] path.1 = name).map Prod.snd

theorem tolower_eq {text : Text} (lower : ∀ c ∈ text, c.toLower = c) : tolower text = text :=
  (List.map_congr_left lower).trans (List.map_id _)

theorem tolower_of_isName {text : Text} (named : isName text = true) : tolower text = text := by
  have lower : alphabet.all (fun c => c.toLower == c) = true := by decide
  rw [isName, List.all_eq_true] at named
  rw [List.all_eq_true] at lower
  apply tolower_eq
  intro c here
  exact eq_of_beq (lower c (List.contains_iff_mem.mp (named c here)))

/-! ## What a variable goes through -/

section Var

variable {V : Type} [DecidableEq V] {var : Var V}

/-- The calls of the listeners while these values are set. -/
def changes (cbs : List ℕ) : V → List V → List (Notification V)
  | _, [] => []
  | val, v :: vs => (if v = val then [] else cbs.map fun listener => ⟨listener, val, v⟩) ++ changes cbs v vs

/-- The variable after these values have been set. -/
def Var.after (var : Var V) (values : List V) : Var V :=
  { var with val := values.getLast?.getD var.val, notified := var.notified ++ changes var.cbs var.val values }

/-- Without values nothing changes and no listener is called. -/
@[simp] theorem Var.after_nil : var.after [] = var := by simp [Var.after, changes]

theorem Var.setValue_after (v : V) (values : List V) : (var.setValue v).after values = var.after (v :: values) := by
  have last : (v :: values).getLast?.getD var.val = values.getLast?.getD v := by
    rw [List.getLast?_cons]
    rfl
  unfold Var.setValue
  split_ifs with same
  · subst same
    simp [Var.after, changes, last]
  · simp [Var.after, changes, last, same]

/-- A variable keeps the last value that a text could be converted to. -/
theorem Var.foldl_fromString (conv : Text → Option V) (texts : List Text) (var : Var V) :
    texts.foldl (fun var text => var.fromString conv text) var = var.after (texts.filterMap conv) := by
  induction texts generalizing var with
  | nil => exact Var.after_nil.symm
  | cons text texts ih =>
    rw [List.foldl_cons, ih, Var.fromString, List.filterMap_cons]
    cases conv text with
    | none => rfl
    | some v => exact Var.setValue_after ..

end Var

/-! ## The result -/

section Load

variable {V : Text → Type} [∀ name, DecidableEq (V name)] (emit : Node → Text) (conv : ∀ name, Text → Option (V name))

/-- A round of the loop changes the variable of its name. -/
theorem loadNode_apply (datas : ∀ name, Option (Var (V name))) (i : Text × Node) (name : Text) :
    loadNode emit conv datas i name =
      if i.1 ≠ [] ∧ tolower i.1 = name then (datas name).map fun var => var.fromString (conv name) (textOf emit i.2)
      else datas name := by
  unfold loadNode
  split_ifs with empty here here
  · exact absurd empty here.1
  · rfl
  · obtain ⟨-, rfl⟩ := here
    exact Function.update_self ..
  · exact Function.update_of_ne (fun same => here ⟨empty, same.symm⟩) ..

theorem foldl_loadNode_apply (is : List (Text × Node)) (datas : ∀ name, Option (Var (V name))) (name : Text) :
    is.foldl (loadNode emit conv) datas name = (datas name).map fun var =>
      ((is.filter fun i => i.1 ≠ [] ∧ tolower i.1 = name).map fun i => textOf emit i.2).foldl
        (fun var text => var.fromString (conv name) text) var := by
  induction is generalizing datas with
  | nil => simp
  | cons i is ih =>
    rw [List.foldl_cons, ih, loadNode_apply, List.filter_cons]
    by_cases here : i.1 ≠ [] ∧ tolower i.1 = name
    · simp [here, Function.comp_def]
    · simp [here]

/-- The nodes that a variable is set from are those whose path is its name. -/
theorem nodesOf_eq (root : Node) (name : Text) :
    ((listAllMember [] root).filter fun i => i.1 ≠ [] ∧ tolower i.1 = name).map Prod.snd = nodesOf name root := by
  have kept (path : List Text × Node) (valid : isPath [] path.1 = true) :
      (joined [] path.1 ≠ [] ∧ tolower (joined [] path.1) = name) ↔ name ≠ [] ∧ joined [] path.1 = name := by
    rw [tolower_of_isName (isName_of_isPath valid)]
    constructor
    · rintro ⟨present, rfl⟩
      exact ⟨present, rfl⟩
    · rintro ⟨present, rfl⟩
      exact ⟨present, rfl⟩
  have shown : ((listAllMember [] root).filter fun i => i.1 ≠ [] ∧ tolower i.1 = name).map Prod.snd =
      ((preorder root).filter fun path =>
        name ≠ [] ∧ isPath [] path.1 ∧ joined [] path.1 = name).map Prod.snd := by
    rw [listAllMember_eq, listed, List.filter_map, List.map_map, List.filter_filter]
    refine congrArg (List.map Prod.snd) (List.filter_congr fun path _ => ?_)
    cases valid : isPath [] path.1 with
    | false => simp
    | true =>
      rw [Bool.eq_iff_iff]
      simpa using kept path valid
  rw [shown, nodesOf]
  split_ifs with empty
  · simp [empty]
  · simp [empty]

/-- After `LoadFromYaml` a variable has the last value that a node of its name could be converted to, or its old
value, and its listeners have been called for these values and no others. -/
theorem loadFromYaml_apply (root : Node) (datas : ∀ name, Option (Var (V name))) (name : Text) :
    loadFromYaml emit conv root datas name =
      (datas name).map fun var =>
        var.after ((nodesOf name root).filterMap fun node => conv name (textOf emit node)) := by
  rw [loadFromYaml, foldl_loadNode_apply, ← nodesOf_eq]
  congr 1
  funext var
  rw [Var.foldl_fromString, List.filterMap_map, List.filterMap_map]
  rfl

end Load

/-- The root has the empty name and can be converted, but the variable of that name keeps its value. -/
theorem not_loadFromYaml_empty :
    ((preorder (.scalar ['1'])).filter fun path => isPath [] path.1 ∧ joined [] path.1 = []).map Prod.snd =
        [.scalar ['1']] ∧
      (loadFromYaml (V := fun _ => ℕ) (fun _ => []) (fun _ _ => some 1) (.scalar ['1'])
        (fun name => if name = [] then some ⟨0, [], []⟩ else none) []).map Var.val = some 0 :=
  ⟨rfl, rfl⟩

/-! ## One call of `setValue` -/

section Alone

variable {threads : ℕ} {V : Type} [DecidableEq V] {m : ConfigVar threads V}

open ConfigVar (machine notification Phase)

/-- A thread that calls the listeners. -/
theorem notify_path (thread : Fin threads) (v : V) (remaining : List ℕ)
    (located : m.phase thread = .notifying v remaining) :
    ∃ events, ((machine threads V).observe notification).Path m events (m.enter thread (.notifying v [])) ∧
      events.filterMap Prod.snd = remaining.map fun listener => ⟨listener, m.val, v⟩ := by
  induction remaining generalizing m with
  | nil =>
    refine ⟨[], ?_, rfl⟩
    have same : m.enter thread (.notifying v []) = m := by
      rw [ConfigVar.enter, ← located, Function.update_eq_self]
    rw [same]
    exact .nil m
  | cons listener remaining ih =>
    obtain ⟨events, path, same⟩ := ih (m := m.enter thread (.notifying v remaining)) (ConfigVar.enter_phase_self ..)
    have step : (machine threads V).Step m (.notify thread) (m.enter thread (.notifying v remaining)) := by
      show m.perform (.notify thread) = _
      rw [ConfigVar.perform, located]
    have shown : m.notification (.notify thread) = some ⟨listener, m.val, v⟩ := by
      rw [notification, located]
    have twice : (m.enter thread (.notifying v remaining)).enter thread (.notifying v []) =
        m.enter thread (.notifying v []) := by
      rw [ConfigVar.enter, ConfigVar.enter, ConfigVar.enter, Function.update_idem]
    rw [twice] at path
    refine ⟨(.notify thread, some ⟨listener, m.val, v⟩) :: events, .cons ⟨step, shown⟩ path, ?_⟩
    rw [List.filterMap_cons, same]
    rfl

/-- A call of `setValue` that meets no other sets the value and calls the listeners as the calls that may meet
others do. -/
theorem setValue_path (quiet : ∀ thread, m.phase thread = .idle) (thread : Fin threads) (v : V)
    (earlier : List (Notification V)) :
    ∃ events, ((machine threads V).observe notification).Path m events
        { m with val := (Var.setValue v ⟨m.val, m.cbs, earlier⟩).val } ∧
      (Var.setValue v ⟨m.val, m.cbs, earlier⟩).notified = earlier ++ events.filterMap Prod.snd := by
  have compared : m.perform (.compare thread v) =
      if v = m.val then some m else some (m.enter thread (.notifying v m.cbs)) := by
    rw [ConfigVar.perform, quiet thread]
  unfold Var.setValue
  split_ifs with same
  · rw [if_pos same] at compared
    exact ⟨[(.compare thread v, none)], .cons ⟨compared, rfl⟩ (.nil m), (List.append_nil _).symm⟩
  · rw [if_neg same] at compared
    obtain ⟨events, path, called⟩ := notify_path (m := m.enter thread (.notifying v m.cbs)) thread v m.cbs
      (ConfigVar.enter_phase_self ..)
    have again (phase phase' : Phase V) : (m.enter thread phase).enter thread phase' = m.enter thread phase' := by
      rw [ConfigVar.enter, ConfigVar.enter, ConfigVar.enter, Function.update_idem]
    rw [again] at path
    have unlocked : (machine threads V).Step (m.enter thread (.notifying v [])) (.unlock thread)
        (m.enter thread (.storing v)) := by
      show ConfigVar.perform _ _ = _
      rw [ConfigVar.perform, ConfigVar.enter_phase_self]
      exact congrArg some (again ..)
    have stored : (machine threads V).Step (m.enter thread (.storing v)) (.store thread) { m with val := v } := by
      have free (other : Fin threads) : ((m.enter thread (.storing v)).phase other).reads = false := by
        rcases eq_or_ne other thread with rfl | ne
        · rw [ConfigVar.enter_phase_self]
          rfl
        · rw [ConfigVar.enter_phase_of_ne _ ne, quiet other]
          rfl
      have back : (m.enter thread (.storing v)).enter thread .idle = m := by
        rw [again, ConfigVar.enter, ← quiet thread, Function.update_eq_self]
      show ConfigVar.perform _ _ = _
      rw [ConfigVar.perform, ConfigVar.enter_phase_self]
      exact (if_pos free).trans (congrArg (fun m => some { m with val := v }) back)
    refine ⟨(.compare thread v, none) :: (events ++ [(.unlock thread, none), (.store thread, none)]),
      .cons ⟨compared, rfl⟩ (path.append (.cons ⟨unlocked, rfl⟩ (.cons ⟨stored, rfl⟩ (.nil _)))), ?_⟩
    have shown : events.filterMap Prod.snd = m.cbs.map fun listener => ⟨listener, m.val, v⟩ := called
    simp [shown]

end Alone

end Sylar.Config
