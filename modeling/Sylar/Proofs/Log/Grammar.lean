import Sylar.Proofs.Log.Scanner

/-! # The grammar of a log pattern

A pattern is well-formed if it can be cut into literals and directives. `LogFormatter` accepts these patterns
and makes of them what they say, but for arguments that begin too far behind: the place of a brace is kept in
an `int`.
-/

namespace Sylar.LogFormatter

/-! ## The grammar -/

/-- A part of a pattern: a text that stands for itself, or a name with or without an argument. -/
inductive Segment where
  | literal (text : Text)
  | directive (name : Text) (arg : Option Text)

namespace Segment

/-- How a segment is written. -/
def write : Segment → Text
  | .literal text => text.flatMap fun c => if c = '%' then ['%', '%'] else [c]
  | .directive name none => '%' :: name
  | .directive name (some arg) => '%' :: (name ++ '{' :: (arg ++ ['}']))

/-- The item of a directive: an empty argument is none. -/
def item (kind : FormatItem.Kind) (arg : Option Text) : FormatItem := .item kind (arg.filter (· ≠ []))

/-- The items of a segment, a text as single characters. -/
def items : Segment → List FormatItem
  | .literal text => text.map fun c => .string [c]
  | .directive name arg => ((FormatItem.Kind.find name).map (item · arg)).toList

/-- What a segment writes into the log. -/
def render (strftime : Text → BitVec 64 → Text) (level : LogLevel) (event : LogEvent) : Segment → Text
  | .literal text => text
  | .directive name arg =>
      ((FormatItem.Kind.find name).map fun kind => (item kind arg).format strftime level event).getD []

def tokens : Segment → List Token
  | .literal text => text.map fun c => if c = '%' then .percent else .char c
  | .directive name none => [.bare name]
  | .directive name (some arg) => [.braced name arg]

end Segment

/-- Every name is one of the twelve, no argument has braces, and what follows a name ends it. -/
def WellFormed : List Segment → Prop
  | [] => True
  | .literal _ :: segs => WellFormed segs
  | .directive name none :: segs =>
      (FormatItem.Kind.find name).isSome ∧
        (∀ c ∈ (segs.flatMap Segment.write).head?, isalpha c = false ∧ c ≠ '{') ∧ WellFormed segs
  | .directive name (some arg) :: segs =>
      (FormatItem.Kind.find name).isSome ∧ '{' ∉ arg ∧ '}' ∉ arg ∧ WellFormed segs

/-- A pattern and its segments. -/
def Reads (segs : List Segment) (pattern : Text) : Prop := WellFormed segs ∧ segs.flatMap Segment.write = pattern

def IsWellFormed (pattern : Text) : Prop := ∃ segs, Reads segs pattern

/-- The constructor returns, reports an error just for a pattern that is not well-formed, and has the items
that the segments say, so that these are what a line consists of. -/
def Renders (pattern : Text) : Prop :=
  ∃ f, new pattern = .ok f ∧ (f.isError = false ↔ IsWellFormed pattern) ∧
    ∀ segs, Reads segs pattern → f.items.flatMap cutItem = segs.flatMap Segment.items ∧
      ∀ strftime level event, f.format strftime level event = segs.flatMap (Segment.render strftime level event)

/-! ## Segments and tokens -/

variable {pattern rest name str fmt : Text} {i k : ℕ} {token : Token} {tokens : List Token} {ps : List Piece}

/-- The names are single letters. -/
theorem eq_singleton_of_find (known : (FormatItem.Kind.find name).isSome) : ∃ c, name = [c] ∧ isalpha c = true := by
  unfold FormatItem.Kind.find at known
  split at known <;> first | exact ⟨_, rfl, by decide⟩ | cases known

theorem isName_of_find (known : (FormatItem.Kind.find name).isSome) : IsName name := by
  obtain ⟨c, rfl, letter⟩ := eq_singleton_of_find known
  exact ⟨List.cons_ne_nil _ _, by simpa using letter⟩

/-- A token of a well-formed pattern. -/
def Token.good : Token → Bool
  | .char _ | .percent => true
  | .bare name => (FormatItem.Kind.find name).isSome
  | .braced str _ => (FormatItem.Kind.find str).isSome
  | .stray | .unclosed _ _ => false

theorem lexes_literal (text : Text) (lexes : Lexes rest tokens) :
    Lexes ((Segment.literal text).write ++ rest) ((Segment.literal text).tokens ++ tokens) := by
  induction text with
  | nil => exact lexes
  | cons c text ih =>
    simp only [Segment.write, Segment.tokens, List.flatMap_cons, List.map_cons, List.append_assoc] at ih ⊢
    split_ifs with percent
    · exact .percent ih
    · exact .char percent ih

/-- The tokens of a well-formed pattern are those of its segments. -/
theorem lexes_of_wellFormed {segs : List Segment} (wellFormed : WellFormed segs) :
    Lexes (segs.flatMap Segment.write) (segs.flatMap Segment.tokens) := by
  induction segs with
  | nil => exact .nil
  | cons seg segs ih =>
    rw [List.flatMap_cons, List.flatMap_cons]
    rcases seg with text | ⟨name, _ | arg⟩
    · exact lexes_literal text (ih wellFormed)
    · obtain ⟨known, stops, wellFormed⟩ := wellFormed
      exact .bare (isName_of_find known) stops (ih wellFormed)
    · obtain ⟨known, opens, closes, wellFormed⟩ := wellFormed
      have braced := Lexes.braced (isName_of_find known) (by simp) List.not_mem_nil opens closes
        (ih wellFormed)
      simpa [Segment.write, Segment.tokens] using braced

/-- Segments whose tokens these are. -/
theorem segments_of_lexes (lexes : Lexes pattern tokens) (good : ∀ token ∈ tokens, token.good) :
    ∃ segs, Reads segs pattern ∧ segs.flatMap Segment.tokens = tokens := by
  induction lexes with
  | nil => exact ⟨[], ⟨trivial, rfl⟩, rfl⟩
  | @char c rest tokens single _ ih =>
    obtain ⟨segs, ⟨wellFormed, rfl⟩, rfl⟩ := ih (List.forall_mem_cons.mp good).2
    exact ⟨.literal [c] :: segs, ⟨wellFormed, by simp [Segment.write, single]⟩, by simp [Segment.tokens, single]⟩
  | percent _ ih =>
    obtain ⟨segs, ⟨wellFormed, rfl⟩, rfl⟩ := ih (List.forall_mem_cons.mp good).2
    exact ⟨.literal ['%'] :: segs, ⟨wellFormed, by simp [Segment.write]⟩, by simp [Segment.tokens]⟩
  | stray => simp [Token.good] at good
  | @bare name _ _ _ stops _ ih =>
    obtain ⟨known, good⟩ := List.forall_mem_cons.mp good
    obtain ⟨segs, ⟨wellFormed, rfl⟩, rfl⟩ := ih good
    exact ⟨.directive name none :: segs, ⟨⟨known, stops, wellFormed⟩, rfl⟩, rfl⟩
  | @braced name inner fmt _ _ isName _ _ opens closes _ ih =>
    obtain ⟨known, good⟩ := List.forall_mem_cons.mp good
    obtain ⟨segs, ⟨wellFormed, rfl⟩, rfl⟩ := ih good
    refine ⟨.directive (name ++ inner) (some fmt) :: segs, ⟨⟨known, opens, closes, wellFormed⟩, ?_⟩, rfl⟩
    simp [Segment.write]
  | unclosed => simp [Token.good] at good

/-- The items of a token of a well-formed pattern. -/
def Token.items : Token → List FormatItem
  | .char c => [.string [c]]
  | .percent => [.string ['%']]
  | .bare name => ((FormatItem.Kind.find name).map (Segment.item · none)).toList
  | .braced str fmt => ((FormatItem.Kind.find str).map (Segment.item · (some fmt))).toList
  | .stray | .unclosed _ _ => []

theorem Segment.items_tokens (seg : Segment) : seg.tokens.flatMap Token.items = seg.items := by
  rcases seg with text | ⟨name, _ | arg⟩
  · induction text with
    | nil => rfl
    | cons c text ih =>
      simp only [tokens, items, List.map_cons, List.flatMap_cons] at ih ⊢
      rw [ih]
      split_ifs with percent
      · simp [Token.items, percent]
      · simp [Token.items]
  · simp [tokens, Token.items, items]
  · simp [tokens, Token.items, items]

theorem Segment.good_tokens {segs : List Segment} (wellFormed : WellFormed segs) :
    ∀ token ∈ segs.flatMap Segment.tokens, token.good := by
  induction segs with
  | nil => exact nofun
  | cons seg segs ih =>
    rw [List.flatMap_cons, List.forall_mem_append]
    rcases seg with text | ⟨name, _ | arg⟩
    · refine ⟨?_, ih wellFormed⟩
      simp only [tokens, List.forall_mem_map]
      intro c _
      split_ifs <;> rfl
    · exact ⟨by simpa [tokens, Token.good] using wellFormed.1, ih wellFormed.2.2⟩
    · exact ⟨by simpa [tokens, Token.good] using wellFormed.1, ih wellFormed.2.2.2⟩

theorem text_of_lexes (lexes : Lexes pattern tokens) : tokens.flatMap Token.text = pattern := by
  induction lexes with
  | nil => rfl
  | unclosed => simp [Token.text]
  | _ => simp_all [Token.text]

/-! ## The place of an argument -/

theorem sizeOfInt_natCast (small : k < 2 ^ 64) : sizeOfInt k = k := by
  unfold sizeOfInt
  omega

/-- What `substr` is asked for, by the place at which the argument begins. -/
theorem argument_eq {q r : ℕ} (size : pattern.length < 2 ^ 63) (inside : r < pattern.length) (after : q + 1 ≤ r) :
    argument pattern (intOf q) r =
      if (q + 1) % 2 ^ 32 = 2 ^ 31 then .error .intOverflow
      else if (q + 1) % 2 ^ 32 < 2 ^ 31 then
        .ok ((pattern.drop ((q + 1) % 2 ^ 32)).take (r - (q + 1) % 2 ^ 32))
      else .error .outOfRange := by
  generalize place : (q + 1) % 2 ^ 32 = k
  have less : k ≤ q + 1 := place ▸ Nat.mod_le _ _
  have small : k < 2 ^ 32 := place ▸ Nat.mod_lt _ (by decide)
  have begins : intOf q + 1 = if k ≤ 2 ^ 31 then (k : ℤ) else (k : ℤ) - 2 ^ 32 := by
    rw [intOf_eq]
    split_ifs <;> omega
  unfold argument
  by_cases fits : k ≤ 2 ^ 31
  · rw [if_pos fits] at begins
    have ends : (r : ℤ) - intOf q - 1 = (r - k : ℕ) := by omega
    rw [begins, ends, sizeOfInt_natCast (by omega), sizeOfInt_natCast (by omega)]
    by_cases overflows : k = 2 ^ 31
    · rw [if_pos (by omega), if_pos overflows]
    · rw [if_neg (by omega), if_neg overflows, if_pos (by omega), Text.substr, if_neg (by omega)]
  · rw [if_neg fits] at begins
    have huge : sizeOfInt (intOf q + 1) > pattern.length := by
      rw [begins, sizeOfInt]
      omega
    rw [if_neg (by omega), if_neg (by omega), if_neg (by omega), Text.substr, if_pos huge]

/-- Where the argument of a token begins, if it has one. -/
def Token.starts (i : ℕ) : Token → List ℕ
  | .braced str _ => [i + 1 + str.length + 1]
  | _ => []

/-- Where the arguments of tokens begin. -/
def argStarts : ℕ → List Token → List ℕ
  | _, [] => []
  | i, token :: tokens => token.starts i ++ argStarts (i + token.text.length) tokens

section Token

/-- The places of the braces of a token. -/
theorem braces_of_shape (shape : pattern.drop i = (Token.braced str fmt).text ++ rest) :
    i + 1 + str.length + 1 + fmt.length < pattern.length ∧
      pattern.drop (i + 1 + str.length + 1) = fmt ++ '}' :: rest := by
  have length := congrArg List.length shape
  simp only [Token.text, List.length_drop, List.length_cons, List.length_append, List.length_nil] at length
  refine ⟨by omega, ?_⟩
  have opening : pattern.drop i = ('%' :: (str ++ ['{'])) ++ (fmt ++ '}' :: rest) := by
    rw [shape, Token.text]
    simp
  have place : i + ('%' :: (str ++ ['{'])).length = i + 1 + str.length + 1 := by
    simp only [List.length_cons, List.length_append, List.length_nil]
    omega
  rw [← place]
  exact drop_of_drop_append opening

/-- The argument that the code takes is the one that stands there just if the `int` keeps the place. -/
theorem argument_braced {arg : Text} (size : pattern.length < 2 ^ 63)
    (shape : pattern.drop i = (Token.braced str fmt).text ++ rest)
    (made : argument pattern (intOf (i + 1 + str.length)) (i + 1 + str.length + 1 + fmt.length) = .ok arg) :
    arg = fmt ↔ i + 1 + str.length + 1 < 2 ^ 31 := by
  obtain ⟨inside, behind⟩ := braces_of_shape shape
  rw [argument_eq size inside (Nat.le_add_right ..)] at made
  generalize i + 1 + str.length + 1 = k at made inside behind ⊢
  split_ifs at made with _ nonneg
  obtain rfl := Except.ok.inj made
  constructor
  · intro same
    have lengths := congrArg List.length same
    have less := Nat.mod_le k (2 ^ 32)
    rw [List.length_take, List.length_drop] at lengths
    omega
  · intro small
    rw [Nat.mod_eq_of_lt (Nat.lt_trans small (by decide)), behind, Nat.add_sub_cancel_left, List.take_left]

theorem braced_piece {piece : Piece} (made : (Token.braced str fmt).piece pattern i = .ok piece) :
    ∃ arg, argument pattern (intOf (i + 1 + str.length)) (i + 1 + str.length + 1 + fmt.length) = .ok arg ∧
      piece = .directive str arg := by
  simp only [Token.piece] at made
  cases taken : argument pattern (intOf (i + 1 + str.length)) (i + 1 + str.length + 1 + fmt.length) with
  | error abort =>
    rw [taken] at made
    cases made
  | ok arg =>
    rw [taken] at made
    exact ⟨arg, rfl, (Except.ok.inj made).symm⟩

theorem optional_eq_iff {arg : Text} :
    (if arg ≠ [] then some arg else none) = (some fmt).filter (· ≠ []) ↔ arg = fmt := by
  by_cases empty : arg = [] <;> by_cases empty' : fmt = [] <;> simp_all [Option.filter, eq_comm]

/-- A piece can be made if its argument begins at a place that the `int` does not make negative. -/
theorem Token.piece_isOk_iff (size : pattern.length < 2 ^ 63) (shape : pattern.drop i = token.text ++ rest) :
    (∃ piece, token.piece pattern i = .ok piece) ↔ ∀ k ∈ token.starts i, k % 2 ^ 32 < 2 ^ 31 := by
  cases token with
  | braced str fmt =>
    obtain ⟨inside, -⟩ := braces_of_shape shape
    simp only [piece, starts, List.mem_singleton, forall_eq]
    rw [argument_eq size inside (Nat.le_add_right ..)]
    split_ifs with overflows nonneg
    · constructor
      · rintro ⟨piece, made⟩
        cases made
      · intro small
        omega
    · exact ⟨fun _ => nonneg, fun _ => ⟨_, rfl⟩⟩
    · constructor
      · rintro ⟨piece, made⟩
        cases made
      · intro small
        exact absurd small nonneg
  | _ => simp [piece, starts]

/-- A piece that is made has the items of its token just if the `int` keeps the place of the argument. -/
theorem Token.items_piece {piece : Piece} (size : pattern.length < 2 ^ 63)
    (shape : pattern.drop i = token.text ++ rest) (good : token.good) (made : token.piece pattern i = .ok piece) :
    ∃ item item', piece.items = [item] ∧ token.items = [item'] ∧ (item = item' ↔ ∀ k ∈ token.starts i, k < 2 ^ 31) := by
  cases token with
  | char c =>
    obtain rfl := Except.ok.inj made
    exact ⟨_, _, rfl, rfl, by simp [starts]⟩
  | percent =>
    obtain rfl := Except.ok.inj made
    exact ⟨_, _, rfl, rfl, by simp [starts]⟩
  | bare name =>
    obtain ⟨kind, known⟩ := Option.isSome_iff_exists.mp good
    obtain rfl := Except.ok.inj made
    refine ⟨.item kind none, .item kind none, ?_, ?_, by simp [starts]⟩
    · simp [Piece.items, itemOf, known, cutItem]
    · simp [items, known, Segment.item]
  | braced str fmt =>
    obtain ⟨kind, known⟩ := Option.isSome_iff_exists.mp good
    obtain ⟨arg, taken, rfl⟩ := braced_piece made
    refine ⟨.item kind (if arg ≠ [] then some arg else none), Segment.item kind (some fmt), ?_, ?_, ?_⟩
    · simp [Piece.items, itemOf, known, cutItem]
    · simp [items, known]
    · simp only [Segment.item, FormatItem.item.injEq, true_and, optional_eq_iff, argument_braced size shape taken,
        starts, List.mem_singleton, forall_eq]
  | stray => cases good
  | unclosed => cases good

/-- A token is good if the scanner reports no error for it and its name is known. -/
theorem Token.unknown_piece {piece : Piece} (made : token.piece pattern i = .ok piece) :
    (token.broken || piece.unknown) = !token.good := by
  cases token with
  | bare name =>
    obtain rfl := Except.ok.inj made
    cases known : FormatItem.Kind.find name <;> simp [broken, good, Piece.unknown, itemOf, known]
  | braced str fmt =>
    obtain ⟨arg, -, rfl⟩ := braced_piece made
    cases known : FormatItem.Kind.find str <;> simp [broken, good, Piece.unknown, itemOf, known]
  | _ =>
    obtain rfl := Except.ok.inj made
    rfl

end Token

/-! ## All tokens of a pattern -/

theorem pieces_cons_eq_ok :
    pieces pattern i (token :: tokens) = .ok ps ↔
      ∃ piece ps', token.piece pattern i = .ok piece ∧ pieces pattern (i + token.text.length) tokens = .ok ps' ∧
        ps = piece :: ps' := by
  rw [pieces]
  cases token.piece pattern i with
  | error abort => simp [bind, Except.bind]
  | ok piece =>
    cases pieces pattern (i + token.text.length) tokens with
    | error abort => simp [bind, Except.bind]
    | ok ps' => simp [bind, Except.bind, pure, Except.pure, eq_comm]

/-- The pieces can be made if no place of an argument becomes negative. -/
theorem pieces_isOk_iff (size : pattern.length < 2 ^ 63) (shape : pattern.drop i = tokens.flatMap Token.text) :
    (∃ ps, pieces pattern i tokens = .ok ps) ↔ ∀ k ∈ argStarts i tokens, k % 2 ^ 32 < 2 ^ 31 := by
  induction tokens generalizing i with
  | nil => simp [pieces, argStarts]
  | cons token tokens ih =>
    rw [List.flatMap_cons] at shape
    rw [argStarts, List.forall_mem_append, ← Token.piece_isOk_iff size shape, ← ih (drop_of_drop_append shape)]
    simp only [pieces_cons_eq_ok]
    constructor
    · rintro ⟨_, piece, ps, made, rest, -⟩
      exact ⟨⟨piece, made⟩, ⟨ps, rest⟩⟩
    · rintro ⟨⟨piece, made⟩, ⟨ps, rest⟩⟩
      exact ⟨_, piece, ps, made, rest, rfl⟩

/-- Then the constructor reports an error just if some token is not good. -/
theorem unknown_pieces (made : pieces pattern i tokens = .ok ps) :
    (tokens.any Token.broken || ps.any Piece.unknown) = !tokens.all Token.good := by
  induction tokens generalizing i ps with
  | nil =>
    obtain rfl := Except.ok.inj made
    rfl
  | cons token tokens ih =>
    obtain ⟨piece, ps, first, rest, rfl⟩ := pieces_cons_eq_ok.mp made
    rw [List.any_cons, List.any_cons, List.all_cons, Bool.not_and, ← Token.unknown_piece first, ← ih rest]
    ac_rfl

/-- And the items are those of the tokens just if every place has been kept. -/
theorem items_pieces (size : pattern.length < 2 ^ 63) (shape : pattern.drop i = tokens.flatMap Token.text)
    (good : ∀ token ∈ tokens, token.good) (made : pieces pattern i tokens = .ok ps) :
    ps.flatMap Piece.items = tokens.flatMap Token.items ↔ ∀ k ∈ argStarts i tokens, k < 2 ^ 31 := by
  induction tokens generalizing i ps with
  | nil =>
    obtain rfl := Except.ok.inj made
    simp [argStarts]
  | cons token tokens ih =>
    obtain ⟨piece, ps, first, rest, rfl⟩ := pieces_cons_eq_ok.mp made
    rw [List.flatMap_cons] at shape
    obtain ⟨goodHere, goodRest⟩ := List.forall_mem_cons.mp good
    obtain ⟨item, item', items, items', same⟩ := Token.items_piece size shape goodHere first
    rw [List.flatMap_cons, List.flatMap_cons, items, items', List.singleton_append, List.singleton_append,
      List.cons.injEq, same, ih (drop_of_drop_append shape) goodRest rest, argStarts, List.forall_mem_append]

/-! ## The result -/

theorem format_cutItem (strftime : Text → BitVec 64 → Text) (level : LogLevel) (event : LogEvent)
    (item : FormatItem) :
    (cutItem item).flatMap (FormatItem.format strftime level event) = item.format strftime level event := by
  cases item with
  | string str =>
    induction str with
    | nil => rfl
    | cons c str ih => exact congrArg (c :: ·) ih
  | item kind fmt => simp [cutItem]

theorem Segment.format_items (strftime : Text → BitVec 64 → Text) (level : LogLevel) (event : LogEvent)
    (seg : Segment) :
    seg.items.flatMap (FormatItem.format strftime level event) = seg.render strftime level event := by
  cases seg with
  | literal text =>
    induction text with
    | nil => rfl
    | cons c text ih => exact congrArg (c :: ·) ih
  | directive name arg => cases known : FormatItem.Kind.find name <;> simp [items, render, known]

/-- A line consists of what the items write, however their texts are cut. -/
theorem format_eq {f : LogFormatter} {segs : List Segment}
    (items : f.items.flatMap cutItem = segs.flatMap Segment.items)
    (strftime : Text → BitVec 64 → Text) (level : LogLevel) (event : LogEvent) :
    f.format strftime level event = segs.flatMap (Segment.render strftime level event) :=
  calc f.items.flatMap (FormatItem.format strftime level event)
      = (f.items.flatMap cutItem).flatMap (FormatItem.format strftime level event) := by
        rw [List.flatMap_assoc]
        exact congrArg f.items.flatMap (funext fun item => (format_cutItem strftime level event item).symm)
    _ = segs.flatMap (Segment.render strftime level event) := by
        rw [items, List.flatMap_assoc]
        exact congrArg segs.flatMap (funext (Segment.format_items strftime level event))

/-- Where the arguments of a pattern begin, and no further than its end. -/
theorem le_of_mem_argStarts (start : k ∈ argStarts i tokens) : k ≤ i + (tokens.flatMap Token.text).length := by
  induction tokens generalizing i with
  | nil => cases start
  | cons token tokens ih =>
    rw [List.flatMap_cons, List.length_append]
    rcases List.mem_append.mp start with here | later
    · cases token with
      | braced str fmt =>
        obtain rfl := List.mem_singleton.mp here
        simp only [Token.text, List.length_cons, List.length_append]
        omega
      | _ => cases here
    · have := ih later
      omega

theorem argStarts_append (others : List Token) :
    argStarts i (tokens ++ others) =
      argStarts i tokens ++ argStarts (i + (tokens.flatMap Token.text).length) others := by
  induction tokens generalizing i with
  | nil => rfl
  | cons token tokens ih =>
    rw [List.cons_append, argStarts, ih, argStarts, List.append_assoc, List.flatMap_cons, List.length_append,
      Nat.add_assoc]

/-- The condition on the places of the arguments: kept in an `int`, or, in a pattern that is refused anyhow,
at least not made negative by it. -/
def KeepsStarts (pattern : Text) : Prop :=
  ∀ tokens, Lexes pattern tokens → ∀ k ∈ argStarts 0 tokens,
    k < 2 ^ 31 ∨ ¬IsWellFormed pattern ∧ k % 2 ^ 32 < 2 ^ 31

theorem shape_of_lexes (lexes : Lexes pattern tokens) : pattern.drop 0 = tokens.flatMap Token.text :=
  (text_of_lexes lexes).symm

/-- What the constructor makes of a pattern whose pieces can be made. -/
theorem new_of_starts (size : pattern.length < 2 ^ 63) (lexes : Lexes pattern tokens)
    (starts : ∀ k ∈ argStarts 0 tokens, k % 2 ^ 32 < 2 ^ 31) :
    ∃ f ps, new pattern = .ok f ∧ pieces pattern 0 tokens = .ok ps ∧ f.items.flatMap cutItem = ps.flatMap Piece.items ∧
      f.isError = !tokens.all Token.good := by
  obtain ⟨ps, made⟩ := (pieces_isOk_iff size (shape_of_lexes lexes)).mpr starts
  obtain ⟨f, returned, items, error⟩ := new_eq_ok lexes made
  exact ⟨f, ps, returned, made, items, error.trans (unknown_pieces made)⟩

/-- A well-formed pattern whose places are kept is read as its segments say. -/
theorem items_of_reads {segs : List Segment} {f : LogFormatter} (size : pattern.length < 2 ^ 63)
    (keeps : KeepsStarts pattern) (reads : Reads segs pattern) (returned : new pattern = .ok f) :
    f.isError = false ∧ f.items.flatMap cutItem = segs.flatMap Segment.items := by
  have lexes : Lexes pattern (segs.flatMap Segment.tokens) := reads.2 ▸ lexes_of_wellFormed reads.1
  have good := Segment.good_tokens reads.1
  have small : ∀ k ∈ argStarts 0 (segs.flatMap Segment.tokens), k < 2 ^ 31 := fun k start =>
    (keeps _ lexes k start).resolve_right fun strange => strange.1 ⟨segs, reads⟩
  obtain ⟨f', ps, returned', made, items, error⟩ := new_of_starts size lexes fun k start => by
    have := small k start
    omega
  obtain rfl := Except.ok.inj (returned.symm.trans returned')
  refine ⟨by rw [error, List.all_eq_true.mpr good]; rfl, ?_⟩
  rw [items, (items_pieces size (shape_of_lexes lexes) good made).mpr small, List.flatMap_assoc]
  exact congrArg segs.flatMap (funext Segment.items_tokens)

theorem renders_of_keepsStarts (size : pattern.length < 2 ^ 63) (keeps : KeepsStarts pattern) : Renders pattern := by
  obtain ⟨tokens, lexes⟩ := exists_lexes pattern
  obtain ⟨f, ps, returned, made, -, error⟩ := new_of_starts size lexes fun k start => by
    rcases keeps tokens lexes k start with small | ⟨-, nonneg⟩
    · omega
    · exact nonneg
  refine ⟨f, returned, ⟨fun noError => ?_, ?_⟩, fun segs reads => ?_⟩
  · rw [error, Bool.not_eq_false'] at noError
    obtain ⟨segs, reads, -⟩ := segments_of_lexes lexes (List.all_eq_true.mp noError)
    exact ⟨segs, reads⟩
  · rintro ⟨segs, reads⟩
    exact (items_of_reads size keeps reads returned).1
  · have items := (items_of_reads size keeps reads returned).2
    exact ⟨items, format_eq items⟩

theorem keepsStarts_of_renders (size : pattern.length < 2 ^ 63) (renders : Renders pattern) :
    KeepsStarts pattern := by
  intro tokens lexes
  obtain ⟨f, returned, accepts, faithful⟩ := renders
  have shape := shape_of_lexes lexes
  cases made : pieces pattern 0 tokens with
  | error abort =>
    rw [new_eq_error lexes made] at returned
    cases returned
  | ok ps =>
    have nonneg := (pieces_isOk_iff size shape).mp ⟨ps, made⟩
    by_cases wellFormed : IsWellFormed pattern
    · obtain ⟨f', ps', returned', made', items, error⟩ := new_of_starts size lexes nonneg
      obtain rfl := Except.ok.inj (returned.symm.trans returned')
      obtain rfl := Except.ok.inj (made.symm.trans made')
      rw [accepts.mpr wellFormed, Eq.comm, Bool.not_eq_false', List.all_eq_true] at error
      obtain ⟨segs, reads, rfl⟩ := segments_of_lexes lexes error
      have same : ps.flatMap Piece.items = (segs.flatMap Segment.tokens).flatMap Token.items := by
        rw [← items, (faithful segs reads).1, List.flatMap_assoc]
        exact congrArg segs.flatMap (funext fun seg => (Segment.items_tokens seg).symm)
      exact fun k start => .inl ((items_pieces size shape error made).mp same k start)
    · exact fun k start => .inr ⟨wellFormed, nonneg k start⟩

/-- Every pattern that is short enough for an `int` is accepted or refused as the grammar has it. -/
theorem renders_of_short (short : pattern.length < 2 ^ 31) : Renders pattern := by
  refine renders_of_keepsStarts (Nat.lt_trans short (by decide)) fun tokens lexes k start => .inl ?_
  have within := le_of_mem_argStarts start
  rw [text_of_lexes lexes] at within
  omega

/-- The constructor does what the grammar says just if it can keep where the arguments begin. -/
theorem renders_iff (size : pattern.length < 2 ^ 63) : Renders pattern ↔ KeepsStarts pattern :=
  ⟨keepsStarts_of_renders size, renders_of_keepsStarts size⟩

theorem renders_iff_date : Renders "%d{%H:%M} 100%%%n".toList ∧ KeepsStarts "%d{%H:%M} 100%%%n".toList := by
  have renders : Renders "%d{%H:%M} 100%%%n".toList := renders_of_short (by decide)
  exact ⟨renders, (renders_iff (by decide)).mp renders⟩

/-- A text of this length in front of a directive with an argument. -/
def farArgument (n : ℕ) : List Segment := [.literal (List.replicate n 'a'), .directive ['d'] (some ['x'])]

theorem write_replicate (n : ℕ) : (Segment.literal (List.replicate n 'a')).write = List.replicate n 'a' := by
  induction n with
  | zero => rfl
  | succ n ih => exact congrArg ('a' :: ·) ih

theorem reads_farArgument (n : ℕ) : Reads (farArgument n) (List.replicate n 'a' ++ "%d{x}".toList) := by
  refine ⟨by simp [farArgument, WellFormed, FormatItem.Kind.find], ?_⟩
  rw [farArgument, List.flatMap_cons, write_replicate]
  rfl

/-- The constructor does not do with a well-formed pattern what it should if the argument begins too far behind. -/
theorem not_renders_of_far {n : ℕ} (size : n < 2 ^ 62) (far : 2 ^ 31 ≤ n + 3) :
    ¬Renders (List.replicate n 'a' ++ "%d{x}".toList) := by
  intro renders
  have reads := reads_farArgument n
  have lexes := reads.2 ▸ lexes_of_wellFormed reads.1
  have length : (List.replicate n 'a' ++ "%d{x}".toList).length = n + 5 := by
    rw [List.length_append, List.length_replicate]
    rfl
  have start : n + 3 ∈ argStarts 0 ((farArgument n).flatMap Segment.tokens) := by
    have before : ((Segment.literal (List.replicate n 'a')).tokens.flatMap Token.text).length = n := by
      have written := text_of_lexes (lexes_literal (List.replicate n 'a') .nil)
      rw [List.append_nil, List.append_nil, write_replicate] at written
      rw [written, List.length_replicate]
    rw [farArgument, List.flatMap_cons, argStarts_append, before]
    simp [Segment.tokens, argStarts, Token.starts]
  rcases keepsStarts_of_renders (by omega) renders _ lexes _ start with small | ⟨strange, -⟩
  · omega
  · exact strange ⟨_, reads⟩

theorem not_renders_far :
    IsWellFormed (List.replicate (2 ^ 31) 'a' ++ "%d{x}".toList) ∧
      ¬Renders (List.replicate (2 ^ 31) 'a' ++ "%d{x}".toList) :=
  ⟨⟨_, reads_farArgument _⟩, not_renders_of_far (by decide) (by decide)⟩

end Sylar.LogFormatter
