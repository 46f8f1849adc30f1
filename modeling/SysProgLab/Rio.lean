import SysProgLab.Proxy
import SysProgLab.Stopping

/-!
# Robust I/O: the wrappers of `csapp.c`

A computation either returns or stops: `unix_error` ends the process, an access
outside an array is undefined, and a thread may wait or loop forever. What the
other side of a connection sends is a stream of bytes, after which a read finds
the end or fails.
-/

namespace SysProgLab

/-- Why a thread does not go on. -/
inductive Stop : Type where
  /-- `unix_error`: the process ends -/
  | exit
  /-- undefined behaviour: an access outside an array or through a null pointer -/
  | fault
  /-- the thread waits or loops forever -/
  | hang
  deriving DecidableEq

/-! ## Reading -/

/-- What is yet to come on a connection. -/
structure Stream : Type where
  /-- the bytes -/
  bytes : List UInt8
  /-- after them a read fails, instead of finding the end -/
  fails : Bool
  deriving DecidableEq

/-- The bytes up to the first newline, at most `n` of them, and the rest. -/
def takeLine : ℕ → List UInt8 → List UInt8 × List UInt8
  | 0, bytes => ([], bytes)
  | _ + 1, [] => ([], [])
  | n + 1, b :: bytes =>
    if b = 10 then ([b], bytes) else (b :: (takeLine n bytes).1, (takeLine n bytes).2)

/-- The C string at the start of an array that ends with a NUL. -/
def upToNul (bytes : List UInt8) : CStr := bytes.takeWhile (· ≠ 0)

/-- `Rio_readlineb` into an array that holds the string `usrbuf`; at the end of the
stream the array is left as it is. -/
def rioReadlineb (s : Stream) (usrbuf : CStr) (maxlen : ℕ) : Except Stop (CStr × Stream) :=
  let r := takeLine (maxlen - 1) s.bytes
  if r.1.getLast? = some 10 ∨ r.1.length = maxlen - 1 then
    .ok (upToNul r.1, { s with bytes := r.2 })
  else if s.fails then .error .exit
  else if r.1 = [] then .ok (usrbuf, s)
  else .ok (upToNul r.1, { s with bytes := r.2 })

/-- `Rio_readn` -/
def rioReadn (s : Stream) (n : ℕ) : Except Stop (List UInt8 × Stream) :=
  if n ≤ s.bytes.length ∨ s.fails = false then
    .ok (s.bytes.take n, { s with bytes := s.bytes.drop n })
  else .error .exit

end SysProgLab
