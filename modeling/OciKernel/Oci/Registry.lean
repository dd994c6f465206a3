import OciKernel.Net.Http
import OciKernel.Oci.Sha256

/-!
# Oci.Registry

Layer digests of `oci/registry.rs`: `hex_encode` and `verify_sha256`.

* `hexEncode_eq`: the hex digits of the bits.
* `sha256_conforms`: the digest, and what `verify_sha256` accepts.
-/

namespace OciKernel

open Text Bits

namespace Registry

/-! ## `hex_encode` and `verify_sha256` -/

/-- The format `{:02x}`. -/
def lowerHex02 (b : UInt8) : Str :=
  let digits := Nat.toDigits 16 b.toNat
  List.replicate (2 - digits.length) '0' ++ digits

def hexEncode (bytes : List UInt8) : Str := bytes.flatMap lowerHex02

inductive RegistryError where
  | http (e : HttpError)
  | auth
  | digestMismatch
  | utf8
deriving DecidableEq, Repr

/-- The outer `none` is a panic of `sha256`. -/
def verifySha256 (data : List UInt8) (expectedDigest : Str) : Option (Except RegistryError Unit) :=
  match expectedDigest.dropPrefix? "sha256:".toList with
  | none => some (.error .digestMismatch)
  | some hex => (sha256 data).map fun computed =>
    if hexEncode computed ≠ hex then .error .digestMismatch else .ok ()

/-! ## Hex digits -/

theorem lowerHex02_eq (b : UInt8) : lowerHex02 b = Sha256.hexDigits (ofByte b) := by
  have h : ∀ n < 256, lowerHex02 (UInt8.ofNat n) = Sha256.hexDigits (ofByte (UInt8.ofNat n)) := by
    decide +kernel
  have hb := h b.toNat b.toNat_lt
  rwa [UInt8.ofNat_toNat] at hb

theorem hexEncode_eq (bytes : List UInt8) : hexEncode bytes = Sha256.hexDigits (ofBytes bytes) := by
  have hcut : chunksExact 4 (ofBytes bytes) = bytes.flatMap fun b => chunksExact 4 (ofByte b) :=
    chunksExact_flatMap_of_mul (k := 2) (by omega) length_ofByte bytes
  rw [Sha256.hexDigits, hcut, List.map_flatMap, hexEncode]
  exact List.flatMap_congr fun b _ => lowerHex02_eq b

theorem length_hexEncode (bytes : List UInt8) : (hexEncode bytes).length = 2 * bytes.length := by
  refine length_flatMap_digits (fun b => ?_) bytes
  rw [lowerHex02_eq, Sha256.hexDigits, List.length_map, chunksExact, List.length_map,
    List.length_range, length_ofByte]

/-! ## Verification -/

theorem verifySha256_ok_iff {data out : List UInt8} (h : sha256 data = some out) (d : Str) :
    verifySha256 data d = some (.ok ()) ↔ d = "sha256:".toList ++ hexEncode out := by
  unfold verifySha256
  rw [h]
  cases hd : d.dropPrefix? "sha256:".toList with
  | none =>
    refine iff_of_false nofun fun he => ?_
    rw [he, List.dropPrefix?_append_of_beq _ BEq.rfl] at hd
    cases hd
  | some hex =>
    obtain ⟨p, rfl, hp⟩ := List.dropPrefix?_eq_some_iff.1 hd
    have hp : p = "sha256:".toList := by simpa using hp
    subst hp
    rw [List.append_cancel_left_eq]
    by_cases he : hexEncode out = hex
    · exact iff_of_true (by simp [he]) he.symm
    · exact iff_of_false (by simp [he]) fun hne => he hne.symm

/-- `sha256` pads to whole blocks and is SHA-256, and `verify_sha256` accepts `sha256:` followed by the
64 hex digits of the digest and nothing else. -/
theorem sha256_conforms (data : List UInt8) (hlen : data.length < 2 ^ 61) :
    IsLeast {n | 64 ∣ n ∧ data.length + 9 ≤ n} (padded data).length ∧
    (sha256 data).map ofBytes = some (Sha256.digest (ofBytes data)) ∧
    (Sha256.hexDigits (Sha256.digest (ofBytes data))).length = 64 ∧
    ∀ d : Str, verifySha256 data d = some (.ok ()) ↔
      d = "sha256:".toList ++ Sha256.hexDigits (Sha256.digest (ofBytes data)) := by
  obtain ⟨out, hout, hlen, hbits⟩ := sha256_eq hlen
  rw [hout, ← hbits, ← hexEncode_eq]
  refine ⟨padded_length data, rfl, ?_, verifySha256_ok_iff hout⟩
  rw [length_hexEncode, hlen]

/-- The digest of `hello`. -/
theorem sha256_conforms_hello :
    "sha256:2cf24dba5fb0a30e26e83b2ac5b9e29e1b161e5c1fa7425e73043362938b9824".toList =
      "sha256:".toList ++ Sha256.hexDigits (Sha256.digest (ofBytes [104, 101, 108, 108, 111])) :=
  ((sha256_conforms [104, 101, 108, 108, 111] (by decide)).2.2.2 _).1 (by decide +kernel)

end Registry
end OciKernel
