import CommonLib.Reasoning.GoString

/-! `request.go` and `response.go`: what a resolver is asked and what it answers. -/

namespace CommonLib.XDNS.Client

open Reasoning

/-- Clock readings in nanoseconds; `0` is the zero `time.Time`. -/
abbrev Time := Int

/-- `Time.Sub`, which saturates at the ends of a duration. -/
def Time.sub (t u : Time) : Int := max (-2 ^ 63) (min (t - u) (2 ^ 63 - 1))

/-- A `netip.Addr`, as its 4 or 16 bytes. -/
abbrev Addr := List UInt8

structure Request where
  domain : GoString
  queryType : UInt16
  noLazy : Bool
deriving DecidableEq

structure Response where
  doesExist : Bool
  addresses : List Addr
  expires : Time
  protectionRequired : Bool
deriving DecidableEq

/-- The zero `Response`. -/
instance : Inhabited Response := ⟨⟨false, [], 0, false⟩⟩

namespace Response

/-- `Successful` of a pointer, which may be nil. -/
def successful : Option Response → Bool
  | none => false
  | some r => r.doesExist && decide (0 < r.addresses.length)

/-- `Expired`, at the clock reading `now`. -/
def expired (r : Response) (now : Time) : Bool :=
  if r.expires = 0 then false else decide (r.expires < now)

end Response

end CommonLib.XDNS.Client
