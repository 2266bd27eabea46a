import Mathlib

/-!
# What the kernel answers

The results of the socket calls of both event loops.
-/

namespace Wasapi

/-- What a call of `send` returns. -/
inductive SendResult where
  /-- `n + 1` octets, or all there are -/
  | sent (n : ℕ)
  | again
  | error
  deriving DecidableEq

/-- How the reads of one read event end. -/
inductive RecvEnd where
  | again
  | eof
  | error
  deriving DecidableEq

/-- The events of one `epoll_wait` for one descriptor. -/
structure IoEvents where
  epollIn : Bool
  epollOut : Bool
  hupOrErr : Bool
  deriving DecidableEq

end Wasapi
