import CommonLib.Reasoning.Run

/-!
# The time bucket

A shaper that turns lengths into durations: `depth` is the time up to which the traffic so far is
paid for, never more than `burst` before the clock.  A call holds the lock until it returns, so that
the calls of one bucket follow one another.
-/

namespace CommonLib.Shaper

open CommonLib.Reasoning

/-! Clock readings and durations are in nanoseconds, unbounded; `0` is the zero `time.Time`. -/

def microsecond : Int := 1000
def millisecond : Int := 1000000
def second : Int := 1000000000

structure TimeBucket where
  depth : Int
  burst : Int
  kiBps : Int

/-- `(n<<10)/kiBps`. -/
def ticks (kiBps n : Int) : Int := (n * 1024).tdiv kiBps

namespace TimeBucket

def newTimeBucket (speedKiBps burstKiB : Int) : Except Crash TimeBucket :=
  if speedKiBps ≤ 0 ∨ burstKiB ≤ 0 then
    .error (.panic "speedKiBps and burstBytes must be positive")
  else .ok ⟨0, millisecond * ticks speedKiBps burstKiB, speedKiBps⟩

/-- The bucket when `Shape` has read the clock and taken what it needs. -/
def take (s : TimeBucket) (length : Int) (now : Int) : TimeBucket :=
  let depth := if now - s.depth > s.burst then now - s.burst else s.depth
  { s with depth := depth + microsecond * ticks s.kiBps length }

end TimeBucket

/-- A call of `Shape` on the bucket: the clock when it starts and when it returns, and whether it
returns true. -/
structure Call where
  length : Nat
  now : Int
  ret : Int
  ok : Bool
deriving DecidableEq

/-- The bucket, and the clock when the last call returned. -/
structure State where
  bucket : TimeBucket
  clock : Int

/-- `now.After(s.depth)` lets a call through at once.  Otherwise it returns true when a timer of
`s.depth.Sub(now)` has fired, or false when the context is done first. -/
def step (s : State) (c : Call) : Option State :=
  let bucket := s.bucket.take c.length c.now
  if s.clock ≤ c.now ∧ c.now ≤ c.ret ∧
      (if c.now > bucket.depth then c.ok = true else c.ok = true → bucket.depth ≤ c.ret) then
    some ⟨bucket, c.ret⟩
  else none

end CommonLib.Shaper
