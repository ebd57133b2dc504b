import Mathlib.Logic.Basic
import Mathlib.Tactic.SplitIfs
import Sylar.Model.Log.Formatter

/-! # What the scanner of `LogFormatter` sees

A pattern is cut into tokens where the two loops cut it: single characters, the two-character percent sign,
a percent sign that opens nothing, and directives with no brace, with closed braces or with an open one.
The scanner then does to each token, at its place, what `emit` says.
-/

namespace Sylar.LogFormatter

variable {pattern rest before after name str fmt : Text} {i q r : ℕ}

/-! ## Tokens -/

inductive Token where
  | char (c : Char)
  | percent
  /-- A percent sign in front of nothing, or of a character that is neither a letter nor a percent sign. -/
  | stray
  | bare (name : Text)
  /-- What stands in front of the last brace before the first that closes, and what between the two. -/
  | braced (str fmt : Text)
  | unclosed (name body : Text)
deriving DecidableEq, Repr

def Token.text : Token → Text
  | .char c => [c]
  | .percent => ['%', '%']
  | .stray => ['%']
  | .bare name => '%' :: name
  | .braced str fmt => '%' :: (str ++ '{' :: (fmt ++ ['}']))
  | .unclosed name body => '%' :: (name ++ '{' :: body)

/-- A run of letters, and not an empty one. -/
structure IsName (name : Text) : Prop where
  nonempty : name ≠ []
  letters : ∀ c ∈ name, isalpha c = true

/-- A text and its tokens. -/
inductive Lexes : Text → List Token → Prop
  | nil : Lexes [] []
  | char {c : Char} {rest : Text} {tokens : List Token} : c ≠ '%' → Lexes rest tokens →
      Lexes (c :: rest) (.char c :: tokens)
  | percent {rest : Text} {tokens : List Token} : Lexes rest tokens →
      Lexes ('%' :: '%' :: rest) (.percent :: tokens)
  | stray {rest : Text} {tokens : List Token} : (∀ c ∈ rest.head?, c ≠ '%' ∧ isalpha c = false) →
      Lexes rest tokens → Lexes ('%' :: rest) (.stray :: tokens)
  | bare {name rest : Text} {tokens : List Token} : IsName name →
      (∀ c ∈ rest.head?, isalpha c = false ∧ c ≠ '{') → Lexes rest tokens →
      Lexes ('%' :: (name ++ rest)) (.bare name :: tokens)
  | braced {name inner fmt rest : Text} {tokens : List Token} : IsName name →
      (∀ c ∈ inner.head?, c = '{') → '}' ∉ inner → '{' ∉ fmt → '}' ∉ fmt → Lexes rest tokens →
      Lexes ('%' :: (name ++ inner ++ '{' :: (fmt ++ '}' :: rest))) (.braced (name ++ inner) fmt :: tokens)
  | unclosed {name body : Text} : IsName name → '}' ∉ body →
      Lexes ('%' :: (name ++ '{' :: body)) [.unclosed name body]

/-- A text is cut at the first place where a character has the property. -/
theorem exists_cut (p : Char → Bool) (s : Text) :
    ∃ run tail : Text, s = run ++ tail ∧ (∀ c ∈ run, p c = false) ∧ ∀ c ∈ tail.head?, p c = true := by
  induction s with
  | nil => exact ⟨[], [], rfl, nofun, nofun⟩
  | cons c s ih =>
    rcases Bool.eq_false_or_eq_true (p c) with here | later
    · exact ⟨[], c :: s, rfl, nofun, fun d same => Option.some.inj same ▸ here⟩
    · obtain ⟨run, tail, rfl, without, first⟩ := ih
      refine ⟨c :: run, tail, rfl, ?_, first⟩
      exact List.forall_mem_cons.mpr ⟨later, without⟩

/-- The last opening brace of a text that has one. -/
theorem exists_last_brace (s : Text) (opens : '{' ∈ s) : ∃ inner fmt : Text, s = inner ++ '{' :: fmt ∧ '{' ∉ fmt := by
  induction s with
  | nil => cases opens
  | cons c s ih =>
    by_cases later : '{' ∈ s
    · obtain ⟨inner, fmt, rfl, last⟩ := ih later
      exact ⟨c :: inner, fmt, rfl, last⟩
    · rcases List.mem_cons.mp opens with rfl | later'
      · exact ⟨[], s, rfl, later⟩
      · exact absurd later' later

/-- What follows an open brace has tokens if what comes after it has. -/
theorem exists_lexes_brace {body : Text} (isName : IsName name)
    (ih : ∀ rest : Text, rest.length ≤ body.length → ∃ tokens, Lexes rest tokens) :
    ∃ tokens, Lexes ('%' :: (name ++ '{' :: body)) tokens := by
  obtain ⟨run, tail, rfl, open_, first⟩ := exists_cut (· == '}') body
  have unclosed : '}' ∉ run := fun closing => by simpa using open_ _ closing
  rcases tail with _ | ⟨c, rest⟩
  · exact ⟨_, .unclosed isName (by simpa using unclosed)⟩
  · obtain rfl : c = '}' := by simpa using first c rfl
    obtain ⟨tokens, lexes⟩ := ih rest (by simp only [List.length_append, List.length_cons]; omega)
    obtain ⟨inner, fmt, cut, last⟩ := exists_last_brace ('{' :: run) (List.mem_cons_self ..)
    have outside : '}' ∉ inner ++ '{' :: fmt := cut ▸ by simpa using unclosed
    obtain ⟨outer, closing⟩ : '}' ∉ inner ∧ '}' ∉ fmt := by simpa using outside
    have first' : ∀ c ∈ inner.head?, c = '{' := by
      cases inner with
      | nil => exact nofun
      | cons d inner => exact fun c same => (Option.some.inj same) ▸ (List.cons.inj cut).1.symm
    have braced := Lexes.braced isName first' outer last closing lexes
    have joined : name ++ inner ++ '{' :: (fmt ++ '}' :: rest) = name ++ ('{' :: run) ++ '}' :: rest := by
      rw [cut]
      simp only [List.append_assoc, List.cons_append]
    rw [joined, List.append_assoc] at braced
    exact ⟨_, braced⟩

/-- What follows a percent sign has tokens if every shorter text has. -/
theorem exists_lexes_percent (rest : Text)
    (ih : ∀ rest' : Text, rest'.length ≤ rest.length → ∃ tokens, Lexes rest' tokens)
    (single : rest.head? ≠ some '%') : ∃ tokens, Lexes ('%' :: rest) tokens := by
  obtain ⟨name, tail, rfl, letters, first⟩ := exists_cut (fun c => !isalpha c) rest
  simp only [Bool.not_eq_eq_eq_not, Bool.not_false, Bool.not_true] at letters first
  by_cases nameless : name = []
  · subst nameless
    obtain ⟨tokens, lexes⟩ := ih tail (Nat.le_refl _)
    refine ⟨_, .stray (fun c head => ⟨?_, first c head⟩) lexes⟩
    rintro rfl
    exact single head
  · have isName : IsName name := ⟨nameless, letters⟩
    by_cases opens : tail.head? = some '{'
    · obtain ⟨body, rfl⟩ := List.head?_eq_some_iff.mp opens
      exact exists_lexes_brace isName
        fun rest' less => ih rest' (by simp only [List.length_append, List.length_cons]; omega)
    · obtain ⟨tokens, lexes⟩ := ih tail (by simp only [List.length_append]; omega)
      refine ⟨_, .bare isName (fun c head => ⟨first c head, ?_⟩) lexes⟩
      rintro rfl
      exact opens head

/-- Every text has tokens. -/
theorem exists_lexes (s : Text) : ∃ tokens, Lexes s tokens := by
  generalize bound : s.length = n
  induction n using Nat.strongRecOn generalizing s with
  | ind n ih =>
    have shorter (rest : Text) (less : rest.length < s.length) : ∃ tokens, Lexes rest tokens :=
      ih rest.length (bound ▸ less) rest rfl
    cases s with
    | nil => exact ⟨[], .nil⟩
    | cons c rest =>
      by_cases isPercent : c = '%'
      · subst isPercent
        by_cases double : rest.head? = some '%'
        · obtain ⟨rest, rfl⟩ := List.head?_eq_some_iff.mp double
          obtain ⟨tokens, lexes⟩ := shorter rest (by simp only [List.length_cons]; omega)
          exact ⟨_, .percent lexes⟩
        · exact exists_lexes_percent rest (fun rest' less => shorter rest' (Nat.lt_succ_of_le less)) double
      · obtain ⟨tokens, lexes⟩ := shorter rest (Nat.lt_succ_self _)
        exact ⟨_, .char isPercent lexes⟩

/-! ## The inner loop -/

section Directive

variable {next_i : ℕ} {fmt_begin : ℤ} {fmt_status : ℕ} {c : Char}

theorem ne_brace_of_isalpha (letter : isalpha c = true) : c ≠ '{' := by
  rintro rfl
  exact absurd letter (by decide)

/-- Letters behind the percent sign are passed, as long as they are not the last of the pattern. -/
theorem directive_letters (letters : ∀ c ∈ name, isalpha c = true)
    (more : next_i + name.length < pattern.length) :
    directive pattern i next_i (name ++ rest) str fmt_begin 0 =
      directive pattern i (next_i + name.length) rest str fmt_begin 0 := by
  induction name generalizing next_i with
  | nil => rfl
  | cons c name ih =>
    obtain ⟨letter, letters⟩ := List.forall_mem_cons.mp letters
    have inside : ¬next_i + 1 ≥ pattern.length := by
      simp only [List.length_cons] at more
      omega
    have step : directive pattern i next_i (c :: (name ++ rest)) str fmt_begin 0 =
        directive pattern i (next_i + 1) (name ++ rest) str fmt_begin 0 := by
      rw [directive]
      simp [ne_brace_of_isalpha letter, letter, inside]
    rw [List.cons_append, step, ih letters (by simp only [List.length_cons] at more; omega), List.length_cons,
      show next_i + 1 + name.length = next_i + (name.length + 1) by omega]

/-- A name at the end of the pattern. -/
theorem directive_end (isName : IsName name) (shape : pattern.drop (i + 1) = name) :
    directive pattern i (i + 1) name [] fmt_begin 0 = .ok (.directive name [] (i + name.length)) := by
  have length : pattern.length = i + 1 + name.length := by
    have positive := List.length_pos_iff.mpr isName.nonempty
    have := congrArg List.length shape
    rw [List.length_drop] at this
    omega
  obtain ⟨first, c, rfl⟩ := List.eq_nil_or_concat name |>.resolve_left isName.nonempty
  simp only [List.length_append, List.length_singleton, List.concat_eq_append] at *
  have letter : isalpha c = true := isName.letters c (by simp)
  rw [directive_letters (fun d member => isName.letters d (by simp [member])) (by omega), directive]
  have place : i + 1 + first.length = i + (first.length + 1) := by omega
  have taken : (pattern.drop (i + 1)).take (i + (first.length + 1)) = first ++ [c] := by
    rw [shape, List.take_of_length_le]
    simp only [List.length_append, List.length_singleton]
    omega
  have last : pattern.length ≤ i + (first.length + 1) + 1 := by omega
  simp [ne_brace_of_isalpha letter, letter, place, last, taken, pure, Except.pure]

/-- A name in front of something else than a brace. -/
theorem directive_bare (isName : IsName name) (shape : pattern.drop (i + 1) = name ++ c :: rest)
    (stops : isalpha c = false) (bare : c ≠ '{') :
    directive pattern i (i + 1) (name ++ c :: rest) [] fmt_begin 0 = .ok (.directive name [] (i + name.length)) := by
  have length : pattern.length = i + 1 + (name ++ c :: rest).length := by
    have := congrArg List.length shape
    rw [List.length_drop] at this
    simp only [List.length_append, List.length_cons] at this ⊢
    omega
  simp only [List.length_append, List.length_cons] at length
  rw [directive_letters isName.letters (by omega), directive]
  have taken : (pattern.drop (i + 1)).take (i + 1 + name.length - i - 1) = name := by
    rw [shape, show i + 1 + name.length - i - 1 = name.length by omega, List.take_left]
  simp [stops, bare, taken, show i + 1 + name.length - 1 = i + name.length by omega, pure, Except.pure]

/-- An opening brace starts the argument anew, wherever it stands. -/
theorem directive_opens :
    directive pattern i next_i ('{' :: rest) str fmt_begin fmt_status =
      directive pattern i (next_i + 1) rest ((pattern.drop (i + 1)).take (next_i - i - 1)) (intOf next_i) 1 := by
  rw [directive]
  simp

/-- Within an argument everything but braces is passed. -/
theorem directive_argument (inside : '}' ∉ fmt) (last : '{' ∉ fmt) :
    directive pattern i next_i (fmt ++ rest) str fmt_begin 1 =
      directive pattern i (next_i + fmt.length) rest str fmt_begin 1 := by
  induction fmt generalizing next_i with
  | nil => rfl
  | cons c fmt ih =>
    simp only [List.mem_cons, not_or] at inside last
    have step : directive pattern i next_i (c :: (fmt ++ rest)) str fmt_begin 1 =
        directive pattern i (next_i + 1) (fmt ++ rest) str fmt_begin 1 := by
      rw [directive]
      simp [Ne.symm inside.1, Ne.symm last.1]
    rw [List.cons_append, step, ih inside.2 last.2, List.length_cons,
      show next_i + 1 + fmt.length = next_i + (fmt.length + 1) by omega]

/-- The last opening brace before the first closing one counts. -/
theorem directive_reopens {inner : Text} (inside : '}' ∉ inner) :
    directive pattern i next_i (inner ++ '{' :: rest) str fmt_begin 1 =
      directive pattern i (next_i + inner.length + 1) rest
        ((pattern.drop (i + 1)).take (next_i + inner.length - i - 1)) (intOf (next_i + inner.length)) 1 := by
  induction inner generalizing next_i str fmt_begin with
  | nil => exact directive_opens
  | cons c inner ih =>
    simp only [List.mem_cons, not_or] at inside
    have step : ∃ str' fmt_begin', directive pattern i next_i (c :: (inner ++ '{' :: rest)) str fmt_begin 1 =
        directive pattern i (next_i + 1) (inner ++ '{' :: rest) str' fmt_begin' 1 := by
      by_cases opens : c = '{'
      · subst opens
        exact ⟨_, _, directive_opens⟩
      · refine ⟨str, fmt_begin, ?_⟩
        rw [directive]
        simp [Ne.symm inside.1, opens]
    obtain ⟨str', fmt_begin', step⟩ := step
    rw [List.cons_append, step, ih inside.2, List.length_cons,
      show next_i + 1 + inner.length = next_i + (inner.length + 1) by omega]

/-- The first closing brace ends the directive. -/
theorem directive_closes :
    directive pattern i next_i ('}' :: rest) str fmt_begin 1 =
      (argument pattern fmt_begin next_i).map fun fmt => .directive str fmt next_i := by
  rw [directive]
  simp only [show ('}' == '{') = false from rfl, Bool.false_eq_true, if_false, and_self, if_true]
  cases argument pattern fmt_begin next_i <;> rfl

/-- A brace that is not closed takes the rest of the pattern. -/
theorem directive_unclosed {body : Text} (inside : '}' ∉ body) :
    directive pattern i next_i body str fmt_begin 1 = .ok (.ended 1 (next_i + body.length)) := by
  induction body generalizing next_i str fmt_begin with
  | nil => rfl
  | cons c body ih =>
    simp only [List.mem_cons, not_or] at inside
    rw [List.length_cons, show next_i + (body.length + 1) = next_i + 1 + body.length by omega]
    by_cases opens : c = '{'
    · subst opens
      rw [directive_opens, ih inside.2]
    · rw [directive]
      simp [Ne.symm inside.1, opens, ih inside.2]

/-- From the percent sign up to the last opening brace. -/
theorem directive_braced {inner : Text} (isName : IsName name)
    (shape : pattern.drop (i + 1) = name ++ inner ++ '{' :: rest)
    (first : ∀ c ∈ inner.head?, c = '{') (inside : '}' ∉ inner) :
    directive pattern i (i + 1) (name ++ inner ++ '{' :: rest) [] 0 0 =
      directive pattern i (i + 1 + (name ++ inner).length + 1) rest (name ++ inner)
        (intOf (i + 1 + (name ++ inner).length)) 1 := by
  have length : pattern.length = i + 1 + (name ++ inner ++ '{' :: rest).length := by
    have := congrArg List.length shape
    rw [List.length_drop] at this
    simp only [List.length_append, List.length_cons] at this ⊢
    omega
  have taken : (pattern.drop (i + 1)).take (i + 1 + (name ++ inner).length - i - 1) = name ++ inner := by
    rw [shape, show i + 1 + (name ++ inner).length - i - 1 = (name ++ inner).length by omega, List.take_left]
  simp only [List.length_append, List.length_cons] at length
  rw [List.append_assoc, directive_letters isName.letters (by omega)]
  cases inner with
  | nil =>
    rw [List.append_nil] at taken ⊢
    rw [List.nil_append, directive_opens, taken]
  | cons c inner =>
    obtain rfl := first c rfl
    rw [List.cons_append, directive_opens, directive_reopens (List.not_mem_of_not_mem_cons inside)]
    have place : i + 1 + name.length + 1 + inner.length = i + 1 + (name ++ '{' :: inner).length := by
      simp only [List.length_append, List.length_cons]
      omega
    rw [place, taken]

end Directive

/-! ## The outer loop -/

/-- A token at which the scanner reports an error. -/
def Token.broken : Token → Bool
  | .stray | .unclosed _ _ => true
  | _ => false

/-- The piece made of a token that begins at `i`. -/
def Token.piece (pattern : Text) (i : ℕ) : Token → Except Abort Piece
  | .char c => .ok (.text [c])
  | .percent => .ok (.text ['%'])
  | .stray | .unclosed _ _ => .ok (.text "<pattern_error>".toList)
  | .bare name => .ok (.directive name [])
  | .braced str fmt =>
      (argument pattern (intOf (i + 1 + str.length)) (i + 1 + str.length + 1 + fmt.length)).map (.directive str)

/-- The pieces made of tokens that begin at `i`, up to the first that cannot be made. -/
def pieces (pattern : Text) : ℕ → List Token → Except Abort (List Piece)
  | _, [] => .ok []
  | i, token :: tokens => do
      let piece ← token.piece pattern i
      let rest ← pieces pattern (i + token.text.length) tokens
      return piece :: rest

/-- A piece with its text cut into single characters. -/
def Piece.cut : Piece → List Piece
  | .text str => str.map fun c => .text [c]
  | .directive str fmt => [.directive str fmt]

def Scan.atoms (s : Scan) : List Piece := s.vec.flatMap Piece.cut ++ s.nstr.map fun c => .text [c]

namespace Scan

variable (s : Scan)

@[simp] theorem flush_nstr : s.flush.nstr = [] := by
  unfold flush
  split_ifs with present
  · rfl
  · exact not_not.mp present

@[simp] theorem flush_error : s.flush.error = s.error := by
  unfold flush
  split_ifs <;> rfl

@[simp] theorem flush_vec : s.flush.vec.flatMap Piece.cut = s.atoms := by
  unfold flush
  split_ifs with present
  · simp [atoms, Piece.cut]
  · simp [atoms, not_not.mp present]

theorem append_atoms (c : Char) : { s with nstr := s.nstr ++ [c] }.atoms = s.atoms ++ [.text [c]] := by
  simp [atoms]

theorem flush_append_atoms (c : Char) :
    { s.flush with nstr := s.flush.nstr ++ [c] }.atoms = s.atoms ++ [.text [c]] := by
  simp [atoms]

theorem flush_push_atoms (piece : Piece) : (s.flush.push piece).atoms = s.atoms ++ piece.cut := by
  simp [atoms, push]

end Scan

/-- A result of the outer loop from `s` on where these pieces are expected. -/
def Follows (s : Scan) (broken : Bool) (expected : Except Abort (List Piece)) (result : Except Abort Scan) : Prop :=
  match expected with
  | .error abort => result = .error abort
  | .ok ps => ∃ s', result = .ok s' ∧ s'.atoms = s.atoms ++ ps.flatMap Piece.cut ∧ s'.error = (s.error || broken)

theorem Follows.cons {token : Token} {tokens : List Token} {piece : Piece} {s s' : Scan} {result : Except Abort Scan}
    (follows : Follows s' (tokens.any Token.broken) (pieces pattern (i + token.text.length) tokens) result)
    (made : token.piece pattern i = .ok piece) (atoms : s'.atoms = s.atoms ++ piece.cut)
    (error : s'.error = (s.error || token.broken)) :
    Follows s ((token :: tokens).any Token.broken) (pieces pattern i (token :: tokens)) result := by
  have unfolded : pieces pattern i (token :: tokens) =
      (pieces pattern (i + token.text.length) tokens).map (piece :: ·) := by
    rw [pieces, made]
    cases pieces pattern (i + token.text.length) tokens <;> rfl
  rw [unfolded]
  cases others : pieces pattern (i + token.text.length) tokens with
  | error abort =>
    rw [others] at follows
    exact follows
  | ok ps =>
    rw [others] at follows
    obtain ⟨last, ended, atoms', error'⟩ := follows
    refine ⟨last, ended, ?_, ?_⟩
    · rw [atoms', atoms, List.flatMap_cons, List.append_assoc]
    · rw [error', error, List.any_cons, Bool.or_assoc]

theorem drop_of_drop_append (shape : pattern.drop i = before ++ after) : pattern.drop
    (i + before.length) = after := by
  rw [← List.drop_drop, shape, List.drop_left]

theorem drop_succ_of_drop_cons {c : Char} (shape : pattern.drop i = c :: rest) : pattern.drop (i + 1) = rest :=
  drop_of_drop_append (show pattern.drop i = [c] ++ rest from shape)

theorem getElem?_of_drop_cons {c : Char} (shape : pattern.drop i = c :: rest) : pattern[i]? = some c := by
  have := congrArg List.head? shape
  rwa [List.head?_drop] at this

section Scan

variable {fuel : ℕ} {s : Scan} {c : Char}

theorem scan_char (shape : pattern.drop i = c :: rest) (single : c ≠ '%') :
    scan pattern (fuel + 1) i s = scan pattern fuel (i + 1) { s with nstr := s.nstr ++ [c] } := by
  simp [scan, getElem?_of_drop_cons shape, single]

theorem scan_percent (shape : pattern.drop i = '%' :: '%' :: rest) :
    scan pattern (fuel + 1) i s = scan pattern fuel (i + 2) { s.flush with nstr := s.flush.nstr ++ ['%'] } := by
  simp [scan, getElem?_of_drop_cons shape, getElem?_of_drop_cons (drop_succ_of_drop_cons shape)]

theorem scan_stray (shape : pattern.drop i = '%' :: c :: rest) (single : c ≠ '%') (strange : isalpha c = false) :
    scan pattern (fuel + 1) i s = scan pattern fuel (i + 1) s.flush.fail := by
  simp [scan, getElem?_of_drop_cons shape, getElem?_of_drop_cons (drop_succ_of_drop_cons shape), single, strange]

theorem scan_stray_end (shape : pattern.drop i = ['%']) : scan pattern (fuel + 1) i s = .ok s.flush.fail := by
  have last : pattern[i + 1]? = none :=
    List.getElem?_eq_none (List.drop_eq_nil_iff.mp (drop_succ_of_drop_cons shape))
  simp [scan, getElem?_of_drop_cons shape, last]

/-- At a name the outer loop leaves the word to the inner one. -/
theorem scan_name (isName : IsName name) (shape : pattern.drop i = '%' :: (name ++ rest)) :
    scan pattern (fuel + 1) i s =
      match directive pattern i (i + 1) (name ++ rest) [] 0 0 with
      | .error abort => .error abort
      | .ok (.directive str fmt i') => scan pattern fuel (i' + 1) (s.flush.push (.directive str fmt))
      | .ok (.ended fmt_status next_i) =>
          if fmt_status = 1 then scan pattern fuel (next_i + 1) s.flush.fail
          else scan pattern fuel (i + 1) s.flush := by
  obtain ⟨d, name, rfl⟩ := List.exists_cons_of_ne_nil isName.nonempty
  have letter : isalpha d = true := isName.letters d (List.mem_cons_self ..)
  have single : d ≠ '%' := by
    rintro rfl
    exact absurd letter (by decide)
  have next := drop_succ_of_drop_cons shape
  have unfolded : scan pattern (fuel + 1) i s =
      match directive pattern i (i + 1) (pattern.drop (i + 1)) [] 0 0 with
      | .error abort => .error abort
      | .ok (.directive str fmt i') => scan pattern fuel (i' + 1) (s.flush.push (.directive str fmt))
      | .ok (.ended fmt_status next_i) =>
          if fmt_status = 1 then scan pattern fuel (next_i + 1) s.flush.fail
          else scan pattern fuel (i + 1) s.flush := by
    simp only [scan, getElem?_of_drop_cons shape, getElem?_of_drop_cons next, single, letter]
    rfl
  rw [unfolded, next]

theorem scan_end (ended : pattern.length ≤ i) : scan pattern fuel i s = .ok s := by
  cases fuel with
  | zero => simp [scan, ended]
  | succ fuel => simp [scan, ended]

/-- At a percent sign before anything that is neither a name nor another one. -/
theorem scan_stray_any (shape : pattern.drop i = '%' :: rest)
    (strange : ∀ c ∈ rest.head?, c ≠ '%' ∧ isalpha c = false) :
    scan pattern (fuel + 1) i s = scan pattern fuel (i + 1) s.flush.fail := by
  cases rest with
  | nil => rw [scan_stray_end shape, scan_end (List.drop_eq_nil_iff.mp (drop_succ_of_drop_cons shape))]
  | cons c rest => exact scan_stray shape (strange c rfl).1 (strange c rfl).2

end Scan

/-! ## What the inner loop finds -/

/-- A name up to something that is neither a letter nor a brace. -/
theorem directive_name (isName : IsName name) (shape : pattern.drop i = '%' :: (name ++ rest))
    (stops : ∀ c ∈ rest.head?, isalpha c = false ∧ c ≠ '{') :
    directive pattern i (i + 1) (name ++ rest) [] 0 0 = .ok (.directive name [] (i + name.length)) := by
  have next := drop_succ_of_drop_cons shape
  cases rest with
  | nil =>
    rw [List.append_nil] at next ⊢
    exact directive_end isName next
  | cons c rest => exact directive_bare isName next (stops c rfl).1 (stops c rfl).2

/-- A name with an argument. What stands between the name and the last opening brace belongs to the name. -/
theorem directive_whole {inner : Text} (isName : IsName name)
    (shape : pattern.drop i = '%' :: (name ++ inner ++ '{' :: (fmt ++ '}' :: rest)))
    (first : ∀ c ∈ inner.head?, c = '{') (outer : '}' ∉ inner) (last : '{' ∉ fmt) (closing : '}' ∉ fmt) :
    directive pattern i (i + 1) (name ++ (inner ++ '{' :: (fmt ++ '}' :: rest))) [] 0 0 =
      (argument pattern (intOf (i + 1 + (name ++ inner).length))
        (i + 1 + (name ++ inner).length + 1 + fmt.length)).map fun arg =>
          .directive (name ++ inner) arg (i + 1 + (name ++ inner).length + 1 + fmt.length) := by
  rw [← List.append_assoc, directive_braced isName (drop_succ_of_drop_cons shape) first outer,
    directive_argument closing last, directive_closes]

/-- A name with a brace that is not closed. -/
theorem directive_open {body : Text} (isName : IsName name) (shape : pattern.drop i = '%' :: (name ++ '{' :: body))
    (inside : '}' ∉ body) : directive pattern i (i + 1) (name ++ '{' :: body) [] 0 0 =
      .ok (.ended 1 (i + 1 + name.length + 1 + body.length)) := by
  have shape' : pattern.drop (i + 1) = name ++ [] ++ '{' :: body := by
    rw [List.append_nil]
    exact drop_succ_of_drop_cons shape
  have braced := directive_braced isName shape' nofun List.not_mem_nil
  rw [List.append_nil] at braced
  rw [braced, directive_unclosed inside]

/-- The outer loop does to each token what its piece says. -/
theorem scan_follows {tokens : List Token} (lexes : Lexes rest tokens) {fuel : ℕ} {s : Scan}
    (shape : pattern.drop i = rest) (enough : rest.length ≤ fuel) :
    Follows s (tokens.any Token.broken) (pieces pattern i tokens) (scan pattern fuel i s) := by
  induction lexes generalizing i fuel s with
  | nil => exact ⟨s, scan_end (List.drop_eq_nil_iff.mp shape), by simp, by simp⟩
  | char single _ ih =>
    obtain ⟨fuel, rfl⟩ := Nat.exists_eq_add_one_of_ne_zero (Nat.ne_zero_of_lt enough)
    rw [scan_char shape single]
    refine (ih (drop_succ_of_drop_cons shape) (Nat.le_of_succ_le_succ enough)).cons rfl (s.append_atoms _) ?_
    simp [Token.broken]
  | percent _ ih =>
    obtain ⟨fuel, rfl⟩ := Nat.exists_eq_add_one_of_ne_zero (Nat.ne_zero_of_lt enough)
    rw [scan_percent shape]
    simp only [List.length_cons] at enough
    refine (ih (drop_succ_of_drop_cons (drop_succ_of_drop_cons shape)) (by omega)).cons rfl
      (s.flush_append_atoms _) ?_
    simp [Token.broken]
  | @stray rest _ strange _ ih =>
    obtain ⟨fuel, rfl⟩ := Nat.exists_eq_add_one_of_ne_zero (Nat.ne_zero_of_lt enough)
    rw [scan_stray_any shape strange]
    have atoms : s.flush.fail.atoms = s.atoms ++ Piece.cut (.text "<pattern_error>".toList) := s.flush_push_atoms _
    refine (ih (drop_succ_of_drop_cons shape) (Nat.le_of_succ_le_succ enough)).cons rfl atoms ?_
    simp [Scan.fail, Token.broken]
  | @bare name rest _ isName stops _ ih =>
    obtain ⟨fuel, rfl⟩ := Nat.exists_eq_add_one_of_ne_zero (Nat.ne_zero_of_lt enough)
    rw [scan_name isName shape, directive_name isName shape stops]
    simp only [List.length_cons, List.length_append] at enough
    have shape' : pattern.drop i = ('%' :: name) ++ rest := shape
    refine (ih (drop_of_drop_append shape') (by omega)).cons rfl (s.flush_push_atoms _) ?_
    simp [Token.broken, Scan.push]
  | @braced name inner fmt rest tokens isName first outer last closing _ ih =>
    obtain ⟨fuel, rfl⟩ := Nat.exists_eq_add_one_of_ne_zero (Nat.ne_zero_of_lt enough)
    have shape' : pattern.drop i = '%' :: (name ++ (inner ++ '{' :: (fmt ++ '}' :: rest))) := by
      rw [shape, List.append_assoc]
    rw [scan_name isName shape', directive_whole isName shape first outer last closing]
    have piece : (Token.braced (name ++ inner) fmt).piece pattern i =
        (argument pattern (intOf (i + 1 + (name ++ inner).length))
          (i + 1 + (name ++ inner).length + 1 + fmt.length)).map (.directive (name ++ inner)) := rfl
    cases made : argument pattern (intOf (i + 1 + (name ++ inner).length))
        (i + 1 + (name ++ inner).length + 1 + fmt.length) with
    | error abort =>
      rw [made] at piece
      rw [pieces, piece]
      rfl
    | ok arg =>
      have place : i + 1 + (name ++ inner).length + 1 + fmt.length + 1 =
          i + (Token.braced (name ++ inner) fmt).text.length := by
        simp only [Token.text, List.length_cons, List.length_append, List.length_nil]
        omega
      have shape'' : pattern.drop i = (Token.braced (name ++ inner) fmt).text ++ rest := by
        simp [shape, Token.text]
      simp only [Except.map]
      rw [place]
      simp only [List.length_cons, List.length_append] at enough
      rw [made] at piece
      refine (ih (drop_of_drop_append shape'') (by omega)).cons piece (s.flush_push_atoms _) ?_
      simp [Token.broken, Scan.push]
  | @unclosed name body isName inside =>
    obtain ⟨fuel, rfl⟩ := Nat.exists_eq_add_one_of_ne_zero (Nat.ne_zero_of_lt enough)
    have ended : pattern.length ≤ i + 1 + name.length + 1 + body.length + 1 := by
      have := congrArg List.length shape
      simp only [List.length_drop, List.length_cons, List.length_append] at this
      omega
    rw [scan_name isName shape, directive_open isName shape inside]
    simp only [if_true]
    rw [scan_end ended]
    refine ⟨s.flush.fail, rfl, ?_, ?_⟩
    · exact (s.flush_push_atoms _).trans (by simp)
    · simp [Scan.fail, Token.broken]

/-! ## The items -/

/-- An item with its text cut into single characters. -/
def cutItem : FormatItem → List FormatItem
  | .string str => str.map fun c => .string [c]
  | .item kind fmt => [.item kind fmt]

/-- The item of a piece, cut. -/
def Piece.items (piece : Piece) : List FormatItem := cutItem (itemOf piece).1

/-- A piece whose name is unknown. -/
def Piece.unknown (piece : Piece) : Bool := (itemOf piece).2

theorem Piece.items_cut (piece : Piece) : piece.cut.flatMap Piece.items = piece.items := by
  cases piece with
  | text str =>
    calc (str.map fun c => text [c]).flatMap items
        = str.flatMap fun c => [.string [c]] := List.flatMap_map ..
      _ = str.map fun c => .string [c] := List.map_eq_flatMap.symm
  | directive str fmt => simp [cut]

theorem Piece.unknown_cut (piece : Piece) : piece.cut.any Piece.unknown = piece.unknown := by
  cases piece with
  | text str => simp [cut, unknown, itemOf]
  | directive str fmt => simp [cut]

variable {vec ps : List Piece}

theorem flatMap_items_cut : (vec.flatMap Piece.cut).flatMap Piece.items = vec.flatMap Piece.items := by
  rw [List.flatMap_assoc]
  exact congrArg vec.flatMap (funext Piece.items_cut)

theorem any_unknown_cut : (vec.flatMap Piece.cut).any Piece.unknown = vec.any Piece.unknown := by
  rw [List.any_flatMap]
  exact congrArg vec.any (funext Piece.unknown_cut)

/-- The constructor throws what the pieces throw. -/
theorem new_eq_error {tokens : List Token} (lexes : Lexes pattern tokens) {abort : Abort}
    (made : pieces pattern 0 tokens = .error abort) : new pattern = .error abort := by
  have scanned := scan_follows (s := {}) lexes (List.drop_zero ..) (Nat.le_refl _)
  rw [made] at scanned
  rw [new, scanned]

/-- What the constructor makes of the pieces. -/
theorem new_eq_ok {tokens : List Token} (lexes : Lexes pattern tokens) (made : pieces pattern 0 tokens = .ok ps) :
    ∃ f, new pattern = .ok f ∧ f.items.flatMap cutItem = ps.flatMap Piece.items ∧
      f.error = (tokens.any Token.broken || ps.any Piece.unknown) := by
  have scanned := scan_follows (s := {}) lexes (List.drop_zero ..) (Nat.le_refl _)
  rw [made] at scanned
  obtain ⟨s, ended, atoms, error⟩ := scanned
  have same : s.flush.vec.flatMap Piece.cut = ps.flatMap Piece.cut := by
    rw [s.flush_vec, atoms]
    rfl
  refine ⟨_, by rw [new, ended], ?_, ?_⟩
  · calc (s.flush.vec.map fun piece => (itemOf piece).1).flatMap cutItem
        = s.flush.vec.flatMap Piece.items := List.flatMap_map ..
      _ = ps.flatMap Piece.items := by rw [← flatMap_items_cut, same, flatMap_items_cut]
  · have unknown : s.flush.vec.any Piece.unknown = ps.any Piece.unknown := by
      rw [← any_unknown_cut, same, any_unknown_cut]
    have broken : s.flush.error = tokens.any Token.broken := by
      rw [s.flush_error, error]
      rfl
    rw [← unknown, ← broken]
    rfl

end Sylar.LogFormatter
