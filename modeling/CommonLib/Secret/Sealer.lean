import CommonLib.Reasoning.Base64
import CommonLib.Reasoning.Crash

/-!
# Sealed texts

A sealed text is the nonce and the ciphertext one after the other, in Base64 for URLs.  `Unseal`
cuts what it has decoded behind the nonce, before anything is authenticated.
-/

namespace CommonLib.Secret

open CommonLib.Reasoning

/-- `cipher.AEAD` under one key, without additional data. -/
structure AEAD where
  nonceSize : Nat
  sealWith : List UInt8 → List UInt8 → List UInt8
  openWith : List UInt8 → List UInt8 → Option (List UInt8)
  openWith_sealWith : ∀ nonce plainText, nonce.length = nonceSize →
    openWith nonce (sealWith nonce plainText) = some plainText

/-- What `rand.Read` fills. -/
abbrev AEAD.Nonce (aead : AEAD) := { nonce : List UInt8 // nonce.length = aead.nonceSize }

/-- `sha256`, and the AEAD that `cipher.NewGCM` makes of AES with a key. -/
structure Primitives where
  sha256 : List UInt8 → List UInt8
  gcm : List UInt8 → AEAD

inductive UnsealError
  | corruptInput
  | authenticationFailed
deriving DecidableEq

structure Sealer where
  aesgcm : AEAD

namespace Sealer

def new (P : Primitives) (secret : GoString) : Sealer := ⟨P.gcm (P.sha256 secret)⟩

/-- `Seal`, with the nonce it draws. -/
def sealText (s : Sealer) (nonce : s.aesgcm.Nonce) (plainText : List UInt8) : GoString :=
  Base64.RawURL.encode (nonce ++ s.aesgcm.sealWith nonce plainText)

/-- The call of `Open`, with what it makes of the two parts. -/
def openCut (s : Sealer) (nonce cipherText : List UInt8) : Except UnsealError (List UInt8) :=
  match s.aesgcm.openWith nonce cipherText with
  | none => .error .authenticationFailed
  | some plainText => .ok plainText

/-- `Unseal`. -/
def unsealText (s : Sealer) (cipherText : GoString) :
    Except Crash (Except UnsealError (List UInt8)) :=
  match Base64.RawURL.decode cipherText with
  | none => .ok (.error .corruptInput)
  | some bytes =>
      -- `bytes[:n]` needs the capacity only, `bytes[n:]` the length.
      if s.aesgcm.nonceSize ≤ bytes.length then
        .ok (s.openCut (bytes.take s.aesgcm.nonceSize) (bytes.drop s.aesgcm.nonceSize))
      else .error (.panic "slice bounds out of range")

theorem unsealText_sealText (s : Sealer) (nonce : s.aesgcm.Nonce) (plainText : List UInt8) :
    s.unsealText (s.sealText nonce plainText) = .ok (.ok plainText) := by
  obtain ⟨nonce, hnonce⟩ := nonce
  have hlen : s.aesgcm.nonceSize ≤ (nonce ++ s.aesgcm.sealWith nonce plainText).length := by
    rw [List.length_append, hnonce]
    exact Nat.le_add_right ..
  have hopen : s.openCut nonce (s.aesgcm.sealWith nonce plainText) = .ok plainText := by
    rw [openCut, s.aesgcm.openWith_sealWith nonce plainText hnonce]
  rw [unsealText, sealText, Base64.RawURL.decode_encode]
  dsimp only
  rw [if_pos hlen, List.take_left' hnonce, List.drop_left' hnonce, hopen]

theorem unsealText_returns {s : Sealer} {cipherText : GoString} :
    (∃ reply, s.unsealText cipherText = .ok reply) ↔
      ∀ bytes, Base64.RawURL.decode cipherText = some bytes →
        s.aesgcm.nonceSize ≤ bytes.length := by
  rw [unsealText]
  cases Base64.RawURL.decode cipherText with
  | none => exact iff_of_true ⟨_, rfl⟩ nofun
  | some bytes =>
      dsimp only
      split
      next hlen =>
        refine iff_of_true ⟨_, rfl⟩ ?_
        rintro _ ⟨⟩
        exact hlen
      next hlen => exact iff_of_false nofun fun h ↦ hlen (h bytes rfl)

/-- `Unseal` returns exactly on a text that cannot be decoded or holds at least a nonce, and it undoes
`Seal`. -/
theorem unseal_safe_iff (P : Primitives) (secret : GoString) :
    (∀ cipherText, (∃ reply, (new P secret).unsealText cipherText = .ok reply) ↔
      ∀ bytes, Base64.RawURL.decode cipherText = some bytes →
        (new P secret).aesgcm.nonceSize ≤ bytes.length) ∧
    ∀ nonce plainText,
      (new P secret).unsealText ((new P secret).sealText nonce plainText) = .ok (.ok plainText) :=
  ⟨fun _ ↦ unsealText_returns, unsealText_sealText _⟩

/-- The nonce size of GCM, and a cipher that hides nothing. -/
def clearText : Primitives where
  sha256 := id
  gcm _ := ⟨12, fun _ plainText ↦ plainText, fun _ cipherText ↦ some cipherText, fun _ _ _ ↦ rfl⟩

/-- The empty text is decoded to no bytes, which cannot be cut after 12. -/
theorem unseal_empty_panics :
    (new clearText (.ofASCII "secret")).unsealText [] =
      .error (.panic "slice bounds out of range") := by
  decide

end Sealer

end CommonLib.Secret
