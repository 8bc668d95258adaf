import CommonLib.XError.Response

/-!
# The certificate issuer

The worker of `ssl.go`: it obtains a certificate, renews it when it is about to expire, and repeats a
failed attempt after a pause.  Both tasks put a new certificate in place before they save it.
-/

namespace CommonLib.XHTTP

open Reasoning XError

/-- Clock readings and durations in nanoseconds. -/
abbrev Time := Int

def minute : Time := 60000000000

def hour : Time := 60 * minute

structure LECertInfo where
  domain : GoString
  cert : List UInt8
  key : List UInt8
  url : GoString
deriving DecidableEq

/-- The fields of a `certificate.Resource` that are read. -/
structure Resource where
  certURL : GoString
  privateKey : List UInt8
  certificate : List UInt8
deriving DecidableEq

/-- A `tls.Certificate` with the expiry of its leaf, as `parseX509` returns it. -/
structure TLSCertificate (KeyPair : Type) where
  pair : KeyPair
  notAfter : Time
deriving DecidableEq

/-- What the issuer uses of `crypto/tls`, `crypto/x509` and `encoding/json`. -/
structure Packages (KeyPair : Type) where
  x509KeyPair : List UInt8 → List UInt8 → Except AnyError KeyPair
  -- `incert.Certificate[0]`, which a key pair always has
  leafDER : KeyPair → List UInt8
  -- `NotAfter` of the certificate
  parseCertificate : List UInt8 → Except AnyError Time
  -- strings and bytes can always be marshalled
  marshal : LECertInfo → List UInt8

structure Issuer (KeyPair : Type) where
  domain : GoString
  -- whether `cli` is set
  cli : Bool
  leCert : Option LECertInfo
  tlsCert : Option (TLSCertificate KeyPair)
  -- the content of the file at `cachedCertPath`
  file : Option (List UInt8)
deriving DecidableEq

/-- `os.WriteFile`: a failed call has left the file alone, or truncated it and written so many
bytes. -/
inductive WriteResult
  | done
  | failed (err : AnyError) (written : Option Nat)
deriving DecidableEq

/-- What one attempt of a task meets. -/
structure Attempt where
  now : Time
  newClient : Option AnyError
  setHTTP01Provider : Option AnyError
  register : Option AnyError
  -- what `Obtain` or `Renew` returns
  answer : Except AnyError Resource
  writeFile : WriteResult
  -- whether the context ends in the pause after the attempt
  cancelled : Bool

def wSSL (description : String) (err : Option AnyError) : AnyError :=
  wInternalError (.ofASCII "ssl") (.ofASCII description) err

/-- `time.Until`, which saturates. -/
def timeUntil (now t : Time) : Time := max (-2 ^ 63) (min (t - now) (2 ^ 63 - 1))

variable {KeyPair : Type} (P : Packages KeyPair)

def parseX509 (cert key : List UInt8) : Except AnyError (TLSCertificate KeyPair) :=
  match P.x509KeyPair cert key with
  | .error err => .error (wSSL "failed to parse x509 key pair" (some err))
  | .ok incert =>
      match P.parseCertificate (P.leafDER incert) with
      | .error err => .error (wSSL "failed to parse the leaf" (some err))
      | .ok notAfter => .ok ⟨incert, notAfter⟩

variable (a : Attempt) (is : Issuer KeyPair)

def getLEClient : Option AnyError × Issuer KeyPair :=
  if is.cli then (none, is)
  else
    match a.newClient, a.setHTTP01Provider, a.register with
    | some err, _, _ => (some (wSSL "failed to create LE client" (some err)), is)
    | none, some err, _ => (some (wSSL "failed to set http-01 provider" (some err)), is)
    | none, none, some err => (some (wSSL "failed to register user" (some err)), is)
    | none, none, none => (none, { is with cli := true })

def writeCert : Option AnyError × Issuer KeyPair :=
  let bs := (is.leCert.map P.marshal).getD (GoString.ofASCII "null")
  match a.writeFile with
  | .done => (none, { is with file := some bs })
  | .failed err written =>
      (some (wSSL "failed to write cert data to a file" (some err)),
        { is with file := written.elim is.file fun n ↦ some (bs.take n) })

/-- The end of both tasks: the new certificate is parsed, put in place and saved. -/
def install (domain : GoString) (res : Resource) : Option AnyError × Issuer KeyPair :=
  match parseX509 P res.certificate res.privateKey with
  | .error err => (some err, is)
  | .ok tlsCert =>
      writeCert P a { is with
        leCert := some ⟨domain, res.certificate, res.privateKey, res.certURL⟩
        tlsCert := some tlsCert }

/-- The error of a task, the issuer it leaves, and the certificates that Let's Encrypt has handed
out. -/
abbrev TaskResult (KeyPair : Type) := Option AnyError × Issuer KeyPair × List Resource

def issueAndSaveCertificate : TaskResult KeyPair :=
  match getLEClient a is with
  | (some err, is) => (some err, is, [])
  | (none, is) =>
      match a.answer with
      | .error err => (some (wSSL "failed to obtain certificate" (some err)), is, [])
      | .ok res =>
          let (err, is) := install P a is is.domain res
          (err, is, [res])

def renewOnce : TaskResult KeyPair :=
  match is.leCert, is.tlsCert with
  | some leCert, some tlsCert =>
      if timeUntil a.now tlsCert.notAfter > 30 * 24 * hour then (none, is, [])
      else
        match getLEClient a is with
        | (some err, is) => (some err, is, [])
        | (none, is) =>
            match a.answer with
            | .error err => (some (wSSL "Renew failed" (some err)), is, [])
            | .ok res =>
                let (err, is) := install P a is leCert.domain res
                (err, is, [res])
  | _, _ => (some (wSSL "Can't renew, certificate is not set" none), is, [])

inductive Task
  | issueAndSaveCertificate
  | renewOnce
deriving DecidableEq, Repr

def Task.run : Task → TaskResult KeyPair
  | .issueAndSaveCertificate => XHTTP.issueAndSaveCertificate P a is
  | .renewOnce => XHTTP.renewOnce P a is

/-! ## The worker -/

inductive Ending
  -- the task has returned nil
  | finished
  | cancelled
  -- the attempts given are over
  | running
deriving DecidableEq, Repr

structure Run (KeyPair : Type) where
  ending : Ending
  issuer : Issuer KeyPair
  obtained : List Resource
  pauses : List Time
deriving DecidableEq

def nextInterval (interval : Time) : Time :=
  if interval * 4 > hour then hour else interval * 4

def workerTaskLoop (task : Task) : Time → List Attempt → Issuer KeyPair → Run KeyPair
  | _, [], is => ⟨.running, is, [], []⟩
  | interval, a :: rest, is =>
      match task.run P a is with
      | (none, is, got) => ⟨.finished, is, got, []⟩
      | (some _, is, got) =>
          if a.cancelled then ⟨.cancelled, is, got, []⟩
          else
            let r := workerTaskLoop task (nextInterval interval) rest is
            { r with obtained := got ++ r.obtained, pauses := interval :: r.pauses }

def workerTask (task : Task) (attempts : List Attempt) (is : Issuer KeyPair) : Run KeyPair :=
  workerTaskLoop P task minute attempts is

section Loop

variable {P} {a} {is} {task : Task} {interval : Time} {rest : List Attempt} {is' : Issuer KeyPair}
  {got : List Resource} {err : AnyError}

theorem workerTaskLoop_finished (h : task.run P a is = (none, is', got)) :
    workerTaskLoop P task interval (a :: rest) is = ⟨.finished, is', got, []⟩ := by
  rw [workerTaskLoop, h]

theorem workerTaskLoop_cancelled (h : task.run P a is = (some err, is', got))
    (hcancelled : a.cancelled = true) :
    workerTaskLoop P task interval (a :: rest) is = ⟨.cancelled, is', got, []⟩ := by
  rw [workerTaskLoop, h]
  exact if_pos hcancelled

theorem workerTaskLoop_retried (h : task.run P a is = (some err, is', got))
    (hcancelled : a.cancelled = false) :
    workerTaskLoop P task interval (a :: rest) is =
      { workerTaskLoop P task (nextInterval interval) rest is' with
        obtained := got ++ (workerTaskLoop P task (nextInterval interval) rest is').obtained
        pauses := interval :: (workerTaskLoop P task (nextInterval interval) rest is').pauses } := by
  rw [workerTaskLoop, h]
  exact if_neg (by rw [hcancelled]; exact Bool.false_ne_true)

end Loop

end CommonLib.XHTTP
