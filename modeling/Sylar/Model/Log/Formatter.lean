import Sylar.Model.Text
import Sylar.ToMathlib.IntOf

/-! # `LogFormatter`

`init` cuts the pattern into pieces with two nested loops over indices and then makes an item of each piece.
The indices are of type `size_t`, but the place of a brace is kept in an `int`. What the C library makes of
a date is a parameter.
-/

namespace Sylar

/-- `LogLevel::Level`; the enumeration can hold other values than its names. -/
abbrev LogLevel := ℕ

namespace LogLevel

def UNKNOWN : LogLevel := 0
def DEBUG : LogLevel := 1

def ToString : LogLevel → Text
  | 1 => "DEBUG".toList
  | 2 => "INFO".toList
  | 3 => "WARN".toList
  | 4 => "ERROR".toList
  | 5 => "FATAL".toList
  | _ => "UNKNOWN".toList

end LogLevel

/-- What the items read of an event and of its logger. -/
structure LogEvent where
  content : Text
  elapse : ℕ
  loggerName : Text
  threadId : ℤ
  fiberId : ℕ
  threadName : Text
  time : BitVec 64
  file : Text
  line : ℤ

/-- The classes derived from `FormatItem`, but for `StringFormatItem`. -/
inductive FormatItem.Kind where
  | message
  | level
  | elapse
  | loggerName
  | threadId
  | newLine
  | dateTime
  | filename
  | line
  | tab
  | fiberId
  | threadName
deriving DecidableEq, Repr

/-- An item, with the argument of its constructor, if it was given one. -/
inductive FormatItem where
  | string (str : Text)
  | item (kind : FormatItem.Kind) (fmt : Option Text)
deriving DecidableEq, Repr

namespace FormatItem

/-- What an item writes; `strftime` writes a time in a format. -/
def format (strftime : Text → BitVec 64 → Text) (level : LogLevel) (event : LogEvent) : FormatItem → Text
  | .string str => str
  | .item .message _ => event.content
  | .item .level _ => level.ToString
  | .item .elapse _ => (Nat.repr event.elapse).toList
  | .item .loggerName _ => event.loggerName
  | .item .threadId _ => (toString event.threadId).toList
  | .item .newLine _ => ['\n']
  | .item .dateTime fmt => strftime (fmt.getD "%Y-%m-%d %H:%M:%S".toList) event.time
  | .item .filename _ => event.file
  | .item .line _ => (toString event.line).toList
  | .item .tab _ => ['\t']
  | .item .fiberId _ => (Nat.repr event.fiberId).toList
  | .item .threadName _ => event.threadName

/-- `m_format_items`. -/
def Kind.find : Text → Option Kind
  | ['m'] => some .message
  | ['p'] => some .level
  | ['r'] => some .elapse
  | ['c'] => some .loggerName
  | ['t'] => some .threadId
  | ['n'] => some .newLine
  | ['d'] => some .dateTime
  | ['f'] => some .filename
  | ['l'] => some .line
  | ['T'] => some .tab
  | ['F'] => some .fiberId
  | ['N'] => some .threadName
  | _ => none

end FormatItem

structure LogFormatter where
  pattern : Text
  items : List FormatItem
  error : Bool
deriving DecidableEq, Repr

namespace LogFormatter

/-- Why the constructor does not return. -/
inductive Abort where
  /-- `substr` throws. -/
  | outOfRange
  /-- `fmt_begin + 1` overflows. -/
  | intOverflow
  /-- The loop has not come to its end. -/
  | fuel
deriving DecidableEq, Repr

/-- An entry of `vec`: a text, or what stands in a directive. -/
inductive Piece where
  | text (str : Text)
  | directive (str fmt : Text)
deriving DecidableEq, Repr

/-- A signed value converted to `size_t`. -/
def sizeOfInt (z : ℤ) : ℕ := (z % 2 ^ 64).toNat

/-- `m_pattern.substr(fmt_begin + 1, next_i - fmt_begin - 1)`. -/
def argument (pattern : Text) (fmt_begin : ℤ) (next_i : ℕ) : Except Abort Text :=
  if fmt_begin + 1 = 2 ^ 31 then .error .intOverflow
  else match pattern.substr (sizeOfInt (fmt_begin + 1)) (sizeOfInt (next_i - fmt_begin - 1)) with
    | none => .error .outOfRange
    | some fmt => .ok fmt

/-- How the inner loop ends: with a piece and the `i` it leaves, or at the end of the pattern. -/
inductive Found where
  | directive (str fmt : Text) (i : ℕ)
  | ended (fmt_status next_i : ℕ)
deriving DecidableEq, Repr

/-- The inner loop, from `next_i` on, where `rest` is left of the pattern. -/
def directive (pattern : Text) (i : ℕ) :
    (next_i : ℕ) → (rest str : Text) → (fmt_begin : ℤ) → (fmt_status : ℕ) → Except Abort Found
  | next_i, [], _, _, fmt_status => .ok (.ended fmt_status next_i)
  | next_i, c :: rest, str, fmt_begin, fmt_status => do
      let opens := c == '{'
      let str := if opens then (pattern.drop (i + 1)).take (next_i - i - 1) else str
      let fmt_begin := if opens then intOf next_i else fmt_begin
      let fmt_status := if opens then 1 else fmt_status
      if fmt_status = 1 ∧ c = '}' then
        let fmt ← argument pattern fmt_begin next_i
        return .directive str fmt next_i
      else if fmt_status = 0 ∧ !isalpha c then
        return .directive ((pattern.drop (i + 1)).take (next_i - i - 1)) [] (next_i - 1)
      else if fmt_status = 0 ∧ isalpha c ∧ next_i + 1 ≥ pattern.length then
        return .directive ((pattern.drop (i + 1)).take next_i) [] next_i
      else directive pattern i (next_i + 1) rest str fmt_begin fmt_status

/-- `vec`, `nstr` and `m_error`. -/
structure Scan where
  vec : List Piece := []
  nstr : Text := []
  error : Bool := false
deriving DecidableEq, Repr

/-- `nstr` goes into `vec` if it is not empty. -/
def Scan.flush (s : Scan) : Scan :=
  if s.nstr ≠ [] then { s with vec := s.vec ++ [.text s.nstr], nstr := [] } else s

def Scan.push (piece : Piece) (s : Scan) : Scan := { s with vec := s.vec ++ [piece] }

/-- The piece that stands for an error. -/
def Scan.fail (s : Scan) : Scan := { s.push (.text "<pattern_error>".toList) with error := true }

/-- The outer loop, from `i` on, as far as the fuel goes. -/
def scan (pattern : Text) : (fuel i : ℕ) → Scan → Except Abort Scan
  | 0, i, s => if i < pattern.length then .error .fuel else .ok s
  | fuel + 1, i, s =>
      match pattern[i]? with
      | none => .ok s
      | some c =>
          if c ≠ '%' then scan pattern fuel (i + 1) { s with nstr := s.nstr ++ [c] }
          else
            let s := s.flush
            match pattern[i + 1]? with
            | none => .ok s.fail
            | some d =>
                if d = '%' then scan pattern fuel (i + 2) { s with nstr := s.nstr ++ ['%'] }
                else if !isalpha d then scan pattern fuel (i + 1) s.fail
                else
                  match directive pattern i (i + 1) (pattern.drop (i + 1)) [] 0 0 with
                  | .error abort => .error abort
                  | .ok (.directive str fmt i') => scan pattern fuel (i' + 1) (s.push (.directive str fmt))
                  | .ok (.ended fmt_status next_i) =>
                      if fmt_status = 1 then scan pattern fuel (next_i + 1) s.fail
                      else scan pattern fuel (i + 1) s

/-- The last loop, over `vec`: the items and whether one of the names is unknown. -/
def itemOf : Piece → FormatItem × Bool
  | .text str => (.string str, false)
  | .directive str fmt =>
      match FormatItem.Kind.find str with
      | none => (.string ("<<error_format  %".toList ++ str ++ ">>".toList), true)
      | some kind => (.item kind (if fmt ≠ [] then some fmt else none), false)

/-- The constructor. Every round of the outer loop passes at least one character. -/
def new (pattern : Text) : Except Abort LogFormatter :=
  match scan pattern pattern.length 0 {} with
  | .error abort => .error abort
  | .ok s => .ok {
      pattern
      items := s.flush.vec.map fun piece => (itemOf piece).1
      error := s.flush.error || s.flush.vec.any fun piece => (itemOf piece).2 }

def isError (f : LogFormatter) : Bool := f.error

def format (strftime : Text → BitVec 64 → Text) (level : LogLevel) (event : LogEvent) (f : LogFormatter) : Text :=
  f.items.flatMap (FormatItem.format strftime level event)

end LogFormatter

end Sylar
