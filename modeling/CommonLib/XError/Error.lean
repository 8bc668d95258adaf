import Mathlib

/-! Errors of the library: sentinel values and the `xerror` wrappers around them. -/

namespace CommonLib.XError

/-- The `ErrorType` variables of `xerror`, one per constructor function. -/
inductive ErrorType
  | internalError | invalidArgument | entryNotFound | entryExists | storageError | tunnelError
  | unauthorized | authenticationFailed | notEnoughSpace | unavailable | configurationRequired
  | forbidden | invalidConfiguration | entityTooLarge | tooEarly | noLicense | limitExceeded
deriving DecidableEq, Repr

/-- `errors.New` values, and `*xerror.Error` values without and with a nested error. -/
inductive GoError
  | new (text : String)
  | x (errorType : ErrorType) (description : String)
  | xNested (errorType : ErrorType) (description : String) (nested : GoError)
deriving DecidableEq, Repr

end CommonLib.XError
