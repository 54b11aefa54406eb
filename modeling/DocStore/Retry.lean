import DocStore.Context

namespace DocStore

-- How often a lost race is run again, and how long to wait before. Delays are in milliseconds.
structure RetryConfig where
  maxRetries : Nat
  baseDelay : Nat
  maxDelay : Nat
  jitter : Bool
  deriving DecidableEq, Repr, Inhabited

namespace RetryConfig

def standard : RetryConfig := ⟨100, 1, 50, true⟩

-- One attempt only.
def single : RetryConfig := { standard with maxRetries := 0 }

-- Delays are held in 64 bits; a product that does not fit stays at the greatest of them.
def maxWord : Nat := 0xFFFFFFFFFFFFFFFF

-- The longest delay after an attempt, in milliseconds. It doubles from one attempt to the next, up
-- to a limit.
def longestDelay (config : RetryConfig) (attempt : Nat) : Nat :=
  min (min (config.baseDelay <<< min attempt 63) maxWord) config.maxDelay

-- The least and the greatest delay that may be drawn, in microseconds. Microseconds are counted
-- in 64 bits, too.
def delayBounds (config : RetryConfig) (attempt : Nat) : Nat × Nat :=
  let cap := config.longestDelay attempt
  if !config.jitter || cap = 0 then (cap * 1000, cap * 1000)
  else
    let micros := cap * 1000 % (maxWord + 1)
    (micros / 2, micros)

end RetryConfig

-- Waits until the time has come or the context ends, whichever is first. The answer tells what
-- the context says then, and when that is.
def Context.wait (ctx : Context) (now duration : Time) : Signal × Time :=
  match ctx.signal now with
  | .go =>
    match ctx.ends now with
    | some stop =>
      if stop ≤ now + duration then (ctx.signal stop, stop) else (.go, now + duration)
    | none => (.go, now + duration)
  | ended => (ended, now)

end DocStore
