import Wasapi.Request

/-!
# Configuration

The fields of `GlobalConfig` that the modelled functions read, with the source's defaults, and the
two constants of the platform they depend on. Sizes are natural numbers that fit a `size_t`.
-/

namespace Wasapi

/-- Arithmetic on `size_t`. -/
def sizeT (n : ℕ) : ℕ := n % 2 ^ 64

theorem sizeT_of_lt {n : ℕ} (h : n < 2 ^ 64) : sizeT n = n := Nat.mod_eq_of_lt h

/-- The limits `process_buffer` copies out of the configuration. -/
structure Limits where
  maxParamsBytes : ℕ := 256 * 1024
  maxStdinBytes : ℕ := 2 * 1024 * 1024
  maxParamsBytes_lt : maxParamsBytes < 2 ^ 64 := by decide
  maxStdinBytes_lt : maxStdinBytes < 2 ^ 64 := by decide

structure GlobalConfig extends Limits where
  fcgiPathPrefix : Bytes := []
  maxRequestTime : ℚ := 30
  defaultContentType : Bytes := ascii "text/plain; charset=utf-8"
  keepUploadedFiles : Bool := false
  cleanupTempOnDisconnect : Bool := true
  wsPathPrefix : Bytes := ascii "/ws"
  sessionCookieName : Bytes := ascii "session_id"
  sessionStoragePath : Bytes := ascii "/tmp/sessions"
  /-- seconds -/
  fileCacheTtl : ℚ := 60 * 10
  fileCacheMaxSize : ℕ := 256 * 1024 * 1024
  /-- No object is larger, so that a larger limit is none. -/
  fileCacheMaxSize_lt : fileCacheMaxSize < 2 ^ 63 := by decide
  /-- `sizeof(Request)` -/
  sizeofRequest : UInt64 := 640
  /-- `alignof(Request)` -/
  alignofRequest : UInt64 := 8

end Wasapi
