import CommonLib.Reasoning.GoMap
import CommonLib.Reasoning.GoString
import CommonLib.XError.Error

/-!
# The RSA key keeper

`rsakeeper.go` and the public keys of `keys.go`.  The keeper has no state but its directory: the key
of an id is the file with the id's text as its name.  `ChangeKey` opens that file without truncating
it, so what is longer than the new key stays behind it.
-/

namespace CommonLib.XCrypto

open Reasoning XError

abbrev UUID := Vector UInt8 16

/-- `uuid.Nil`. -/
def UUID.nil : UUID := .replicate 16 0

/-- A `pem.Block` without headers. -/
structure Block where
  type : GoString
  bytes : List UInt8
deriving DecidableEq

/-- What the keeper uses of `crypto/x509`, `encoding/pem` and `uuid`: a public key is read back from
its encoding, `pem.Decode` returns the block of a public key whatever follows it, and an id is read
back from its text. -/
structure Formats (Key : Type) where
  marshalPKCS1PublicKey : Key → List UInt8
  parsePKCS1PublicKey : List UInt8 → Except GoError Key
  encodeToMemory : Block → List UInt8
  decode : List UInt8 → Option (Block × List UInt8)
  uuidString : UUID → GoString
  uuidParse : GoString → Except GoError UUID
  parse_marshal : ∀ key, parsePKCS1PublicKey (marshalPKCS1PublicKey key) = .ok key
  decode_encode : ∀ bytes rest, decode (encodeToMemory ⟨.ofASCII "RSA PUBLIC KEY", bytes⟩ ++ rest) =
    some (⟨.ofASCII "RSA PUBLIC KEY", bytes⟩, rest)
  uuidParse_string : ∀ id, uuidParse (uuidString id) = .ok id

/-! ## Files -/

/-- The files of the directory. -/
abbrev Files := GoMap GoString (List UInt8)

inductive OSError
  | exist
  | notExist
  | other (text : String)
deriving DecidableEq, Repr

def OSError.error : OSError → GoError
  | .exist => .new "file exists"
  | .notExist => .new "no such file or directory"
  | .other text => .new text

/-- What fails in one call: the access to the directory or the file, and the write, after the given
number of bytes. -/
structure Faults where
  access : Option OSError
  write : Option (Nat × OSError)

def Faults.none : Faults := ⟨.none, .none⟩

inductive OpenFlags
  -- `os.O_CREATE|os.O_EXCL|os.O_WRONLY`
  | createExclusive
  -- `os.O_WRONLY`
  | writeOnly
deriving DecidableEq, Repr

section Files

variable (faults : Faults) (files : Files)

def readFile (name : GoString) : Except OSError (List UInt8) :=
  match faults.access, files.lookup name with
  | some err, _ => .error err
  | .none, some content => .ok content
  | .none, .none => .error .notExist

def openFile (name : GoString) (flags : OpenFlags) : Except OSError Files :=
  match faults.access, flags, files.lookup name with
  | some err, _, _ => .error err
  | .none, .createExclusive, some _ => .error .exist
  | .none, .createExclusive, .none => .ok (files.insert name [])
  | .none, .writeOnly, some _ => .ok files
  | .none, .writeOnly, .none => .error .notExist

/-- `fd.Write` at the start of the opened file. -/
def writeFile (name : GoString) (bytes : List UInt8) : Option OSError × Files :=
  let content := (files.lookup name).getD []
  match faults.write with
  | .none => (.none, files.insert name (bytes ++ content.drop bytes.length))
  | some (n, err) =>
      (some err, files.insert name (bytes.take n ++ content.drop (bytes.take n).length))

def removeFile (name : GoString) : Except OSError Files :=
  match faults.access, files.lookup name with
  | some err, _ => .error err
  | .none, some _ => .ok (files.erase name)
  | .none, .none => .error .notExist

/-- `ioutil.ReadDir`, which sorts the names. -/
def readDir : Except OSError (List GoString) :=
  match faults.access with
  | some err => .error err
  | .none => .ok (files.keys.mergeSort fun a b ↦ decide (a ≤ b))

end Files

/-! ## Keys -/

variable {Key : Type} (F : Formats Key)

def marshalPublicKey (key : Key) : List UInt8 :=
  F.encodeToMemory ⟨.ofASCII "RSA PUBLIC KEY", F.marshalPKCS1PublicKey key⟩

def unmarshalPublicKey (bs : List UInt8) : Except GoError Key :=
  match F.decode bs with
  | none => .error (.x .internalError "can't parse PEM file")
  | some (publicPEM, _) =>
      match F.parsePKCS1PublicKey publicPEM.bytes with
      | .ok publicKey => .ok publicKey
      | .error err => .error (.xNested .internalError "can't parse PEM file" err)

def makeError (err : OSError) (opMessage : String) : GoError :=
  if err = .notExist then .xNested .entryNotFound "key not found" err.error
  else .xNested .internalError opMessage err.error

variable (faults : Faults) (files : Files)

/-- The name of the file in the keeper's directory. -/
def keyPath (keyUUID : UUID) : GoString := F.uuidString keyUUID

def readKey (keyUUID : UUID) : Except GoError Key :=
  if keyUUID = .nil then .error (.x .invalidArgument "nil uuid is not allowed")
  else
    match readFile faults files (keyPath F keyUUID) with
    | .error err => .error (makeError err "can't read key")
    | .ok pemBytes => unmarshalPublicKey F pemBytes

/-- `writeKey`, with the error it returns and the files it leaves. -/
def writeKey (keyUUID : UUID) (key : Key) (flags : OpenFlags) : Option GoError × Files :=
  if keyUUID = .nil then (some (.x .invalidArgument "nil uuid is not allowed"), files)
  else
    match openFile faults files (keyPath F keyUUID) flags with
    | .error .exist =>
        (some (.xNested .entryExists "key with same ID already exists" OSError.exist.error), files)
    | .error .notExist =>
        (some (.xNested .entryExists "key does not exists" OSError.notExist.error), files)
    | .error err => (some (.xNested .internalError "can't store key" err.error), files)
    | .ok opened =>
        match writeFile faults opened (keyPath F keyUUID) (marshalPublicKey F key) with
        | (none, written) => (none, written)
        | (some err, written) =>
            (some (.xNested .internalError "can't store key" err.error), written)

def addKey (keyUUID : UUID) (key : Key) : Option GoError × Files :=
  writeKey F faults files keyUUID key .createExclusive

def changeKey (keyUUID : UUID) (key : Key) : Option GoError × Files :=
  writeKey F faults files keyUUID key .writeOnly

def getKey (keyUUID : UUID) : Except GoError Key := readKey F faults files keyUUID

def deleteKey (keyUUID : UUID) : Option GoError × Files :=
  if keyUUID = .nil then (some (.x .invalidArgument "nil uuid is not allowed"), files)
  else
    match removeFile faults files (keyPath F keyUUID) with
    | .error err => (some (makeError err "can't delete key"), files)
    | .ok rest => (none, rest)

/-- One turn of the loop of `ListKeys`: a file whose name is no id, or that holds no key, is
skipped. -/
def listedKey (name : GoString) : Option (UUID × Key) :=
  match F.uuidParse name with
  | .error _ => none
  | .ok keyUUID =>
      match readKey F faults files keyUUID with
      | .error _ => none
      | .ok key => some (keyUUID, key)

def listKeys : Except GoError (List (UUID × Key)) :=
  match readDir faults files with
  | .error err => .error (.xNested .internalError "can't list keys" err.error)
  | .ok names => .ok (names.filterMap (listedKey F faults files))

end CommonLib.XCrypto
