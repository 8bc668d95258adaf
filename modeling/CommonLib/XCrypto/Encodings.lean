import CommonLib.Reasoning.DER
import CommonLib.Reasoning.PEM
import CommonLib.Reasoning.Text
import CommonLib.Reasoning.UTF8
import CommonLib.XCrypto.RSAKeeper

/-!
# The formats of the key files

`x509.MarshalPKCS1PublicKey`, `encoding/pem` and `uuid.UUID.String` with their readers.
-/

namespace CommonLib.XCrypto

open Reasoning XError

/-! ## Public keys -/

/-- An `rsa.PublicKey` that `crypto/x509` reads back: `asn1` takes no longer elements. -/
structure PublicKey where
  n : Nat
  e : Nat
  n_pos : 0 < n
  e_pos : 0 < e
  e_lt : e < 2 ^ 31
  fits : (DER.integer n ++ DER.integer e).length < 2 ^ 31
deriving DecidableEq

namespace PublicKey

variable {key old new : PublicKey} {der : List UInt8}

def content (key : PublicKey) : List UInt8 := DER.integer key.n ++ DER.integer key.e

def marshal (key : PublicKey) : List UInt8 := DER.element 0x30 key.content

/-- The numbers of a `pkcs1PublicKey`.  A sequence may go on behind them, the data may not. -/
def read (der : List UInt8) : Option (Nat × Nat) := do
  let (content, rest) ← DER.readElement 0x30 der
  let (n, content) ← DER.readInteger content
  let (e, _) ← DER.readInteger content
  if rest = [] then some (n, e) else none

/-- `x509.ParsePKCS1PublicKey`; the errors of `asn1` are not told apart. -/
def parse (der : List UInt8) : Except GoError PublicKey :=
  match read der with
  | none => .error (.new "asn1: syntax error")
  | some (n, e) =>
      if hpos : 0 < n ∧ 0 < e then
        -- what has been read is never too long
        if h : e < 2 ^ 31 ∧ (DER.integer n ++ DER.integer e).length < 2 ^ 31 then
          .ok ⟨n, e, hpos.1, hpos.2, h.1, h.2⟩
        else .error (.new "x509: public key contains large public exponent")
      else .error (.new "x509: public key contains zero or negative value")

theorem read_marshal (key : PublicKey) : read key.marshal = some (key.n, key.e) := by
  have hfits := key.fits
  rw [List.length_append] at hfits
  have hcontent := DER.readElement_element 0x30 key.fits []
  rw [List.append_nil] at hcontent
  have he := DER.readInteger_integer (n := key.e) (by omega) []
  rw [List.append_nil] at he
  rw [read, marshal, content, hcontent]
  simp only [bind, Option.bind_some, DER.readInteger_integer (n := key.n) (by omega), he, if_true]

theorem parse_marshal (key : PublicKey) : parse key.marshal = .ok key := by
  rw [parse, read_marshal]
  exact (dif_pos ⟨key.n_pos, key.e_pos⟩).trans (dif_pos ⟨key.e_lt, key.fits⟩)

theorem read_inv {n e : Nat} (h : read der = some (n, e)) :
    ∃ more, der = DER.element 0x30 (DER.integer n ++ DER.integer e ++ more) ∧
      (DER.integer n ++ DER.integer e ++ more).length < 2 ^ 31 := by
  simp only [read, bind, Option.bind_eq_some_iff] at h
  obtain ⟨⟨content, rest⟩, hcontent, ⟨n', s⟩, hn, ⟨e', more⟩, he, hrest⟩ := h
  obtain ⟨rfl, heq⟩ := Option.ite_none_right_eq_some.mp hrest
  cases heq
  obtain ⟨hder, hlen⟩ := DER.readElement_inv hcontent
  have hn' : content = DER.integer n' ++ s := DER.readInteger_inv hn
  have he' : s = DER.integer e' ++ more := DER.readInteger_inv he
  have hsplit : content = DER.integer n' ++ DER.integer e' ++ more := by
    rw [hn', he', List.append_assoc]
  rw [List.append_nil, hsplit] at hder
  rw [hsplit] at hlen
  exact ⟨more, hder, hlen⟩

/-- What is read as a key is its encoding, but for what may follow in the sequence. -/
theorem parse_inv (h : parse der = .ok key) :
    ∃ more, der = DER.element 0x30 (key.content ++ more) ∧
      (key.content ++ more).length < 2 ^ 31 := by
  rw [parse] at h
  cases hread : read der with
  | none =>
      rw [hread] at h
      cases h
  | some p =>
      rw [hread] at h
      simp only at h
      split at h
      · split at h
        · cases h
          exact read_inv hread
        · cases h
      · cases h

/-- The numbers say where they end. -/
theorem eq_of_content_prefix (h : old.content <+: new.content) : old = new := by
  obtain ⟨more, hmore⟩ := h
  have hold := old.fits
  have hnew := new.fits
  rw [List.length_append] at hold hnew
  rw [content, content, List.append_assoc] at hmore
  have hn := DER.readInteger_integer (n := old.n) (by omega) (DER.integer old.e ++ more)
  rw [hmore, DER.readInteger_integer (by omega), Option.some.injEq, Prod.mk.injEq] at hn
  have he := DER.readInteger_integer (n := old.e) (by omega) more
  rw [← hn.2, ← List.append_nil (DER.integer new.e), DER.readInteger_integer (by omega),
    Option.some.injEq, Prod.mk.injEq] at he
  cases old
  cases new
  cases hn.1
  cases he.1
  rfl

theorem eq_of_prefix_marshal (h : parse der = .ok old) (hbegins : der <+: new.marshal) :
    old = new := by
  obtain ⟨more, rfl, hlen⟩ := parse_inv h
  have heq : _ = new.content := DER.element_eq_of_prefix hlen new.fits hbegins
  exact eq_of_content_prefix (heq ▸ List.prefix_append _ _)

theorem eq_of_marshal_prefix (h : parse der = .ok old) (hbegins : new.marshal <+: der) :
    old = new := by
  obtain ⟨more, rfl, hlen⟩ := parse_inv h
  have heq : new.content = _ := DER.element_eq_of_prefix new.fits hlen hbegins
  exact eq_of_content_prefix (heq ▸ List.prefix_append _ _)

theorem eq_marshal_of_length (h : parse der = .ok old) (hlen : der.length = old.marshal.length) :
    der = old.marshal := by
  obtain ⟨more, rfl, -⟩ := parse_inv h
  rw [DER.content_eq_nil_of_length_eq hlen, List.append_nil, marshal]

/-- What is read as `old` and begins like the encoding of `new`, further than `old` needs. -/
theorem eq_of_take_marshal {k : Nat} (h : parse der = .ok old)
    (hsame : der.take k = new.marshal.take k) (hk : old.marshal.length + 4 ≤ k) : old = new := by
  obtain ⟨more, rfl, hlen⟩ := parse_inv h
  have hpos := DER.length_writeLength_pos old.content.length
  rw [marshal, DER.length_element] at hk
  exact eq_of_content_prefix (DER.prefix_of_element_take hlen new.fits (by omega) hsame)

end PublicKey

/-! ## Ids -/

/-- `UUID.String`. -/
def uuidString (id : UUID) : GoString :=
  let bytes := id.toList
  let part (i n : Nat) := GoString.hexText ((bytes.drop i).take n)
  part 0 4 ++ 45 :: (part 4 2 ++ 45 :: (part 6 2 ++ 45 :: (part 8 2 ++ 45 :: part 10 6)))

/-- The sixteen bytes of 32 digits. -/
def uuidOfDigits (digits : GoString) : Except GoError UUID :=
  match GoString.hexBytes digits with
  | none => .error (.new "invalid UUID format")
  | some bytes =>
      if h : bytes.length = 16 then .ok ⟨bytes.toArray, h⟩ else .error (.new "invalid UUID format")

/-- The digits of a text with dashes; what follows it is not read. -/
def uuidOfDashed (s : GoString) : Except GoError UUID :=
  if s[8]? = some 45 ∧ s[13]? = some 45 ∧ s[18]? = some 45 ∧ s[23]? = some 45 then
    let part (i n : Nat) := (s.drop i).take n
    uuidOfDigits (part 0 8 ++ (part 9 4 ++ (part 14 4 ++ (part 19 4 ++ part 24 12))))
  else .error (.new "invalid UUID format")

def foldCase (c : UInt8) : UInt8 := if UTF8.isUpper c then c + 32 else c

/-- `uuid.Parse`. -/
def uuidParse (s : GoString) : Except GoError UUID :=
  if s.length = 36 then uuidOfDashed s
  else if s.length = 45 then
    if (s.take 9).map foldCase = GoString.ofASCII "urn:uuid:" then uuidOfDashed (s.drop 9)
    else .error (.new "invalid urn prefix")
  -- in braces, which are not looked at
  else if s.length = 38 then uuidOfDashed (s.drop 1)
  else if s.length = 32 then uuidOfDigits s
  else .error (.new "invalid UUID length")

theorem uuidOfDigits_hexText (id : UUID) : uuidOfDigits (GoString.hexText id.toList) = .ok id := by
  rw [uuidOfDigits, GoString.hexBytes_hexText]
  exact (dif_pos id.length_toList).trans
    (congrArg Except.ok (Vector.toArray_inj.mp Array.toArray_toList))

theorem uuidParse_string (id : UUID) : uuidParse (uuidString id) = .ok id := by
  have hid := uuidOfDigits_hexText id
  obtain ⟨⟨bytes⟩, hlen⟩ := id
  match bytes, hlen with
  | [_, _, _, _, _, _, _, _, _, _, _, _, _, _, _, _], _ => exact hid

/-! ## The files -/

def stdFormats : Formats PublicKey where
  marshalPKCS1PublicKey := PublicKey.marshal
  parsePKCS1PublicKey := PublicKey.parse
  encodeToMemory block := PEM.encode block.type block.bytes
  decode s := (PEM.decode s).map fun p ↦ (⟨p.1, p.2.1⟩, p.2.2)
  uuidString := uuidString
  uuidParse := uuidParse
  parse_marshal := PublicKey.parse_marshal
  decode_encode bytes rest := by
    have htype : 10 ∉ GoString.ofASCII "RSA PUBLIC KEY" ∧ 58 ∉ GoString.ofASCII "RSA PUBLIC KEY" := by
      decide
    rw [PEM.decode_encode htype]
    rfl
  uuidParse_string := uuidParse_string

end CommonLib.XCrypto
