import Mathlib.Data.List.Basic
import Sylar.Model.Text

/-! # What `Address::Lookup` passes to `getaddrinfo`

A pointer into `host` is the position it points to. Behind the characters stands the terminator, and an access behind
that one has no result.
-/

namespace Sylar

/-- `host.c_str()`. -/
def cStr (host : Text) : Text := host ++ ['\x00']

/-- `*(host.c_str() + pos)`. -/
def charAt (host : Text) (pos : ℕ) : Option Char := (cStr host)[pos]?

/-- `memchr(host.c_str() + pos, c, n)`, where `none` inside is the null pointer. -/
def memchr (host : Text) (pos : ℕ) (c : Char) (n : ℕ) : Option (Option ℕ) :=
  if pos + n ≤ (cStr host).length then some ((((cStr host).drop pos).take n).idxOf? c |>.map (pos + ·)) else none

/-- The C string at a pointer, up to its terminator. -/
def stringAt (host : Text) (pos : ℕ) : Option Text :=
  if pos < (cStr host).length then some (((cStr host).drop pos).takeWhile (· ≠ '\x00')) else none

namespace Address

/-- What the first of the two passes leaves in `node` and `service`. -/
def ipv6Service (host : Text) : Option (Text × Option ℕ) :=
  if host.head? = some '[' then do
    match ← memchr host 1 ']' (host.length - 1) with
    | some endipv6 =>
        let service := if (← charAt host (endipv6 + 1)) = ':' then some (endipv6 + 2) else none
        let node ← host.substr 1 (endipv6 - 1)
        return (node, service)
    | none => return ([], none)
  else return ([], none)

/-- What the second pass makes of it. -/
def nodeService (host node : Text) (service : Option ℕ) : Option (Text × Option ℕ) :=
  if node = [] then do
    match ← memchr host 0 ':' host.length with
    | some service =>
        match ← memchr host (service + 1) ':' (host.length - service - 1) with
        | none => return (← host.substr 0 service, some (service + 1))
        | some _ => return (node, some service)
    | none => return (node, none)
  else return (node, service)

/-- The strings that `getaddrinfo` gets. -/
def lookupArguments (host : Text) : Option (Text × Option Text) := do
  let (node, service) ← ipv6Service host
  let (node, service) ← nodeService host node service
  let node ← stringAt (if node = [] then host else node) 0
  match service with
  | none => return (node, none)
  | some service => return (node, some (← stringAt host service))

end Address

end Sylar
