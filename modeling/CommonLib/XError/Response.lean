import CommonLib.Reasoning.UTF8
import CommonLib.XError.Error

/-!
# Errors as HTTP responses

`xerror/errors.go`: the constructors, the text of an error, and the status and body it is answered
with.  An error carries its serializer, which decides how much of it goes into the body.
-/

namespace CommonLib.XError

open CommonLib.Reasoning

def ErrorType.httpCode : ErrorType → Nat
  | .internalError => 500
  | .invalidArgument => 400
  | .entryNotFound => 404
  | .entryExists => 409
  | .storageError => 500
  | .tunnelError => 500
  | .unauthorized => 401
  | .authenticationFailed => 401
  | .notEnoughSpace => 507
  | .unavailable => 503
  | .configurationRequired => 409
  | .forbidden => 403
  | .invalidConfiguration => 500
  | .entityTooLarge => 413
  | .tooEarly => 425
  | .noLicense => 403
  | .limitExceeded => 403

/-- The constants of `openapi.ErrorResult`, and the one that `ErrorToHttpResponse` spells out. -/
inductive ErrorResult
  | internalError | invalidArgument | notFound | entryExists | storageError | tunnelError
  | unauthorized | authFailed | insufficientStorage | serviceUnavailable | configurationRequired
  | forbidden | invalidConfiguration | tooLong | tooEarly | noLicense | limitExceeded
  | unknownError
deriving DecidableEq, Repr

def ErrorType.codeName : ErrorType → ErrorResult
  | .internalError => .internalError
  | .invalidArgument => .invalidArgument
  | .entryNotFound => .notFound
  | .entryExists => .entryExists
  | .storageError => .storageError
  | .tunnelError => .tunnelError
  | .unauthorized => .unauthorized
  | .authenticationFailed => .authFailed
  | .notEnoughSpace => .insufficientStorage
  | .unavailable => .serviceUnavailable
  | .configurationRequired => .configurationRequired
  | .forbidden => .forbidden
  | .invalidConfiguration => .invalidConfiguration
  | .entityTooLarge => .tooLong
  | .tooEarly => .tooEarly
  | .noLicense => .noLicense
  | .limitExceeded => .limitExceeded

inductive Serializer
  | default
  | secretive
deriving DecidableEq, Repr

inductive Level
  | error
  | warning
deriving DecidableEq, Repr

/-- The fields of an `*Error` but for the nested error. -/
structure Fields where
  errorType : ErrorType
  description : GoString
  failedField : Option GoString
  warningLabel : GoString
  serializer : Serializer
  externalLoggerLevel : Level
deriving DecidableEq, Repr

/-- The values of the `error` interface: an `*Error` without and with a nested error, what
`fmt.Errorf` makes of an error at its `%w`, and errors of other packages. -/
inductive AnyError
  | x (e : Fields)
  | xNested (e : Fields) (nestedError : AnyError)
  | errorf (before after : GoString) (err : AnyError)
  | other (text : GoString)
deriving DecidableEq, Repr

def AnyError.error : AnyError → GoString
  | .x e => e.description
  | .xNested e nestedError => e.description ++ .ofASCII ": " ++ nestedError.error
  | .errorf before after err => before ++ err.error ++ after
  | .other text => text

/-- An `*Error` with the nested error `err`, if it is not nil. -/
def Fields.nest (e : Fields) : Option AnyError → AnyError
  | none => .x e
  | some err => .xNested e err

def newError (errorType : ErrorType) (description : GoString) (serializer : Serializer)
    (err : Option AnyError) (failedField : Option GoString) : AnyError :=
  Fields.nest ⟨errorType, description, failedField, [], serializer, .error⟩ err

def newWarning (errorType : ErrorType) (msg : GoString) (serializer : Serializer)
    (err : Option AnyError) (failedField : Option GoString) (label : GoString) : AnyError :=
  let label := if label.length = 0 then .ofASCII "unset" else label
  Fields.nest ⟨errorType, msg, failedField, label, serializer, .warning⟩ err

section Constructors

variable (label description failedField : GoString) (err : Option AnyError)

def eInternalError : AnyError := newError .internalError description .secretive err none
def wInternalError : AnyError := newWarning .internalError description .secretive err none label
def eInvalidArgument : AnyError := newError .invalidArgument description .default err none
def wInvalidArgument : AnyError := newWarning .invalidArgument description .default err none label
def eInvalidField : AnyError := newError .invalidArgument description .default err (some failedField)
def wInvalidField : AnyError :=
  newWarning .invalidArgument description .default err (some failedField) label
def eEntryNotFound : AnyError := newError .entryNotFound description .default err none
def wEntryNotFound : AnyError := newWarning .entryNotFound description .default err none label
def eExists : AnyError := newError .entryExists description .default err none
def wExists : AnyError := newWarning .entryExists description .default err none label
def eStorageError : AnyError := newError .storageError description .default err none
def wStorageError : AnyError := newWarning .storageError description .default err none label
def eTunnelError : AnyError := newError .tunnelError description .default err none
def wTunnelError : AnyError := newWarning .tunnelError description .default err none label
def eUnauthorized : AnyError := newError .unauthorized description .secretive err none
def wUnauthorized : AnyError := newWarning .unauthorized description .secretive err none label
def eAuthenticationFailed : AnyError :=
  newError .authenticationFailed description .secretive err none
def wAuthenticationFailed : AnyError :=
  newWarning .authenticationFailed description .secretive err none label
def eNotEnoughSpace : AnyError := newError .notEnoughSpace description .default err none
def wNotEnoughSpace : AnyError := newWarning .notEnoughSpace description .default err none label
def eUnavailable : AnyError := newError .unavailable description .default err none
def wUnavailable : AnyError := newWarning .unavailable description .default err none label
def eEntityTooLarge : AnyError := newError .entityTooLarge description .default err none
def eTooEarly : AnyError := newError .tooEarly description .default err none

end Constructors

/-- `openapi.Error`; the optional texts are pointers. -/
structure OpenAPIError where
  result : ErrorResult
  error : Option GoString
  field : Option GoString
  details : Option GoString
deriving DecidableEq, Repr

/-- The object with its texts as JSON can carry them. -/
def OpenAPIError.valid (o : OpenAPIError) : OpenAPIError :=
  ⟨o.result, o.error.map UTF8.toValid, o.field.map UTF8.toValid, o.details.map UTF8.toValid⟩

/-- `json.MarshalIndent` of an `openapi.Error`.  The body tells every field, though the texts only
with the bytes replaced that are not UTF-8. -/
structure Marshaller where
  marshalError : OpenAPIError → List UInt8
  tells : ∀ o o', marshalError o = marshalError o' → o.valid = o'.valid

section Response

variable (m : Marshaller)

def defaultSerializer (e : Fields) (nestedError : Option AnyError) : Nat × List UInt8 :=
  (e.errorType.httpCode, m.marshalError
    ⟨e.errorType.codeName, some e.description, e.failedField, nestedError.map AnyError.error⟩)

def secretiveSerializer (e : Fields) (_nestedError : Option AnyError) : Nat × List UInt8 :=
  (e.errorType.httpCode, m.marshalError ⟨e.errorType.codeName, some e.description, none, none⟩)

def Fields.serialize (e : Fields) (nestedError : Option AnyError) : Nat × List UInt8 :=
  match e.serializer with
  | .default => defaultSerializer m e nestedError
  | .secretive => secretiveSerializer m e nestedError

/-- Only an `*Error` itself is serialized in its own way, not one that `fmt.Errorf` wraps. -/
def errorToHttpResponse (err : AnyError) : Nat × List UInt8 :=
  match err with
  | .x e => e.serialize m none
  | .xNested e nestedError => e.serialize m (some nestedError)
  | err => (500, m.marshalError ⟨.unknownError, some err.error, none, none⟩)

end Response

end CommonLib.XError
