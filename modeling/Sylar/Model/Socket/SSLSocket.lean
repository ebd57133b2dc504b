import Sylar.ToMathlib.Signed

/-! # `SSLSocket::send` and `SSLSocket::recv` of several buffers

What `SSL_write` and `SSL_read` return for a buffer is given beside its length. The total is an `int`, and so is the
length a buffer is compared and passed with.
-/

namespace Sylar

namespace SSLSocket

/-- The `iov_len` of a buffer, and what the call for it returns. -/
structure Buffer where
  iov_len : BitVec 64
  result : BitVec 32
deriving DecidableEq, Repr

/-- `(int)buffers[i].iov_len`. -/
def Buffer.length (buffer : Buffer) : ℤ := (buffer.iov_len.setWidth 32).toInt

/-- What a call on several buffers returns, if it is defined, and what the calls returned that it made. -/
structure Transfer where
  returned : Option ℤ
  calls : List ℤ
deriving DecidableEq, Repr

/-- The loop, with what it has added up. -/
def transfer (total : ℤ) : List Buffer → Transfer
  | [] => ⟨some total, []⟩
  | buffer :: buffers =>
      let tmp := buffer.result.toInt
      if tmp ≤ 0 then ⟨some tmp, [tmp]⟩
      else
        match signed 32 (total + tmp) with
        | none => ⟨none, [tmp]⟩
        | some total =>
            if tmp ≠ buffer.length then ⟨some total, [tmp]⟩
            else
              let rest := transfer total buffers
              ⟨rest.returned, tmp :: rest.calls⟩

/-- `send`, with `m_ssl` or without it. -/
def send (ssl : Bool) (buffers : List Buffer) : Transfer := if !ssl then ⟨some (-1), []⟩ else transfer 0 buffers

def recv (ssl : Bool) (buffers : List Buffer) : Transfer := if !ssl then ⟨some (-1), []⟩ else transfer 0 buffers

end SSLSocket

end Sylar
