import OciKernel.Lib.Sha256

/-!
# Oci.Sha256

The function `sha256` of `oci/registry.rs`, over a slice of bytes, against SHA-256 on bits.

* `padded_eq`: the padded array: the message, `0x80`, zeros, and the length in bits.
* `messageSchedule_getD`, `foldl_round`: the two loops over a block.
* `processBlock_spec`: one block.
* `sha256_eq`: the bytes of the digest.
-/

namespace OciKernel

open Bits

namespace Registry

/-! ## Tables -/

/-- The initial hash values. -/
def H0 : Vector (BitVec 32) 8 := #v[
  0x6a09e667, 0xbb67ae85, 0x3c6ef372, 0xa54ff53a,
  0x510e527f, 0x9b05688c, 0x1f83d9ab, 0x5be0cd19]

/-- The round constants. -/
def K : List (BitVec 32) := [
  0x428a2f98, 0x71374491, 0xb5c0fbcf, 0xe9b5dba5,
  0x3956c25b, 0x59f111f1, 0x923f82a4, 0xab1c5ed5,
  0xd807aa98, 0x12835b01, 0x243185be, 0x550c7dc3,
  0x72be5d74, 0x80deb1fe, 0x9bdc06a7, 0xc19bf174,
  0xe49b69c1, 0xefbe4786, 0x0fc19dc6, 0x240ca1cc,
  0x2de92c6f, 0x4a7484aa, 0x5cb0a9dc, 0x76f988da,
  0x983e5152, 0xa831c66d, 0xb00327c8, 0xbf597fc7,
  0xc6e00bf3, 0xd5a79147, 0x06ca6351, 0x14292967,
  0x27b70a85, 0x2e1b2138, 0x4d2c6dfc, 0x53380d13,
  0x650a7354, 0x766a0abb, 0x81c2c92e, 0x92722c85,
  0xa2bfe8a1, 0xa81a664b, 0xc24b8b70, 0xc76c51a3,
  0xd192e819, 0xd6990624, 0xf40e3585, 0x106aa070,
  0x19a4c116, 0x1e376c08, 0x2748774c, 0x34b0bcb5,
  0x391c0cb3, 0x4ed8aa4a, 0x5b9cca4f, 0x682e6ff3,
  0x748f82ee, 0x78a5636f, 0x84c87814, 0x8cc70208,
  0x90befffa, 0xa4506ceb, 0xbef9a3f7, 0xc67178f2]

/-! ## `sha256` -/

/-- `bytes[off..off + data.len()].copy_from_slice(data)`. -/
def copyFromSlice (bytes : List UInt8) (off : Nat) (data : List UInt8) : List UInt8 :=
  bytes.take off ++ data ++ bytes.drop (off + data.length)

def paddedLen (msgLen : Nat) : Nat := (msgLen + 9 + 63) / 64 * 64

def padded (data : List UInt8) : List UInt8 :=
  let zeros := List.replicate (paddedLen data.length) 0
  let copied := (copyFromSlice zeros 0 data).set data.length 0x80
  copyFromSlice copied (paddedLen data.length - 8) (toBeBytes 8 (data.length * 8))

/-- `u32::from_be_bytes`. -/
def fromBeBytes (bytes : List UInt8) : BitVec 32 := BitVec.ofNat 32 (byteValue bytes)

/-- The array `w` of a block. -/
def messageSchedule (block : List UInt8) : List (BitVec 32) :=
  let w := (List.range 16).foldl (fun w i =>
    w.set i (fromBeBytes [block.getD (i * 4) 0, block.getD (i * 4 + 1) 0,
      block.getD (i * 4 + 2) 0, block.getD (i * 4 + 3) 0])) (List.replicate 64 0)
  (List.range' 16 48).foldl (fun w i =>
    let x := w.getD (i - 15) 0
    let y := w.getD (i - 2) 0
    let s0 := x.rotateRight 7 ^^^ x.rotateRight 18 ^^^ x >>> 3
    let s1 := y.rotateRight 17 ^^^ y.rotateRight 19 ^^^ y >>> 10
    w.set i (w.getD (i - 16) 0 + s0 + w.getD (i - 7) 0 + s1)) w

structure Working where
  a : BitVec 32
  b : BitVec 32
  c : BitVec 32
  d : BitVec 32
  e : BitVec 32
  f : BitVec 32
  g : BitVec 32
  hh : BitVec 32
deriving DecidableEq, Repr

/-- One pass of the loop over the 64 rounds. -/
def Working.round (v : Working) (k w : BitVec 32) : Working :=
  let s1 := v.e.rotateRight 6 ^^^ v.e.rotateRight 11 ^^^ v.e.rotateRight 25
  let ch := v.e &&& v.f ^^^ ~~~v.e &&& v.g
  let temp1 := v.hh + s1 + ch + k + w
  let s0 := v.a.rotateRight 2 ^^^ v.a.rotateRight 13 ^^^ v.a.rotateRight 22
  let maj := v.a &&& v.b ^^^ v.a &&& v.c ^^^ v.b &&& v.c
  let temp2 := s0 + maj
  { a := temp1 + temp2, b := v.a, c := v.b, d := v.c, e := v.d + temp1, f := v.e, g := v.f, hh := v.g }

/-- One pass of the loop over the blocks. -/
def processBlock (h : Vector (BitVec 32) 8) (block : List UInt8) : Vector (BitVec 32) 8 :=
  let w := messageSchedule block
  let v := (List.range 64).foldl (fun (v : Working) i => v.round (K.getD i 0) (w.getD i 0))
    ⟨h[0], h[1], h[2], h[3], h[4], h[5], h[6], h[7]⟩
  #v[h[0] + v.a, h[1] + v.b, h[2] + v.c, h[3] + v.d, h[4] + v.e, h[5] + v.f, h[6] + v.g, h[7] + v.hh]

/-- `none` is the overflow of `bit_len`, a panic. -/
def sha256 (data : List UInt8) : Option (List UInt8) :=
  if data.length * 8 < 2 ^ 64 then
    let h := (chunksExact 64 (padded data)).foldl processBlock H0
    some (h.toList.flatMap fun hi => toBeBytes 4 hi.toNat)
  else none

/-! ## The tables -/

def primes : List Nat := [
  2, 3, 5, 7, 11, 13, 17, 19, 23, 29, 31, 37, 41, 43, 47, 53, 59, 61, 67, 71, 73, 79, 83, 89, 97, 101,
  103, 107, 109, 113, 127, 131, 137, 139, 149, 151, 157, 163, 167, 173, 179, 181, 191, 193, 197, 199,
  211, 223, 227, 229, 233, 239, 241, 251, 257, 263, 269, 271, 277, 281, 283, 293, 307, 311]

theorem filter_prime : (List.range 312).filter Nat.Prime = primes := by
  have hdivide : (List.range 312).filter Nat.Prime = (List.range 312).filter fun n =>
      2 ≤ n ∧ ∀ m < 18, 2 ≤ m → m < n → ¬ m ∣ n := by
    refine List.filter_congr fun n hn => ?_
    have hlt := List.mem_range.1 hn
    simp only [Sha256.prime_iff_of_lt_sq (show n < 18 * 18 by omega)]
  rw [hdivide]
  decide +kernel

theorem nth_prime {t : Nat} (h : t < 64) : Nat.nth Nat.Prime t = primes.getD t 0 := by
  have ht : t < primes.length := h
  refine Sha256.nth_eq_of_getElem? (n := 312) ?_
  rw [filter_prime, List.getElem?_eq_getElem ht, List.getD_eq_getElem _ _ ht]

/-- `w` is the fractional part of a `d`-th root of `p` in 32 bits. -/
def IsRootBits (d p : Nat) (w : BitVec 32) : Prop :=
  ∃ c < 18, (c * 2 ^ 32 + w.toNat) ^ d ≤ p * 2 ^ (32 * d) ∧
    p * 2 ^ (32 * d) < (c * 2 ^ 32 + w.toNat + 1) ^ d

instance (d p : Nat) (w : BitVec 32) : Decidable (IsRootBits d p w) :=
  inferInstanceAs (Decidable (∃ c < 18, _))

theorem IsRootBits.eq {d p : Nat} {w : BitVec 32} (hd : d ≠ 0) (h : IsRootBits d p w) :
    Sha256.rootBits d p = w := by
  obtain ⟨c, _, hle, hlt⟩ := h
  rw [Sha256.rootBits_eq hd hle hlt]
  apply BitVec.eq_of_toNat_eq
  have := w.isLt
  rw [BitVec.toNat_ofNat]
  omega

theorem K_eq {t : Nat} (h : t < 64) : K.getD t 0 = Sha256.constant t := by
  have hroot : ∀ t < 64, IsRootBits 3 (primes.getD t 0) (K.getD t 0) := by decide +kernel
  rw [Sha256.constant, nth_prime h, (hroot t h).eq (by omega)]

theorem H0_eq (i : Fin 8) : H0[i] = Sha256.rootBits 2 (Nat.nth Nat.Prime i) := by
  have hroot : ∀ i : Fin 8, IsRootBits 2 (primes.getD i 0) H0[i] := by decide +kernel
  rw [nth_prime (by omega), (hroot i).eq (by omega)]

/-! ## The padding -/

theorem ofBytes_append (x y : List UInt8) : ofBytes (x ++ y) = ofBytes x ++ ofBytes y :=
  List.flatMap_append

/-- The zero bytes between `0x80` and the length. -/
def zeroBytes (msgLen : Nat) : Nat := paddedLen msgLen - 9 - msgLen

theorem le_paddedLen (msgLen : Nat) : msgLen + 9 ≤ paddedLen msgLen := by
  unfold paddedLen
  omega

theorem paddedLen_eq (msgLen : Nat) : paddedLen msgLen = msgLen + 1 + zeroBytes msgLen + 8 := by
  have hle := le_paddedLen msgLen
  unfold zeroBytes
  omega

/-- Data copied over zeros that follow `before`. -/
theorem copyFromSlice_zeros (before data : List UInt8) (n : Nat) :
    copyFromSlice (before ++ List.replicate (data.length + n) 0) before.length data =
      before ++ data ++ List.replicate n 0 := by
  rw [copyFromSlice, List.take_left, List.drop_length_add_append, List.drop_replicate,
    Nat.add_sub_cancel_left]

theorem padded_eq (data : List UInt8) : padded data =
    data ++ 0x80 :: (List.replicate (zeroBytes data.length) 0 ++ toBeBytes 8 (data.length * 8)) := by
  have hcopied : copyFromSlice (List.replicate (paddedLen data.length) 0) 0 data =
      data ++ List.replicate (zeroBytes data.length + 8 + 1) 0 := by
    have hlen : paddedLen data.length = data.length + (zeroBytes data.length + 8 + 1) := by
      rw [paddedLen_eq]
      omega
    rw [hlen]
    exact copyFromSlice_zeros [] data (zeroBytes data.length + 8 + 1)
  have hmarked : (data ++ List.replicate (zeroBytes data.length + 8 + 1) 0).set data.length 0x80 =
      (data ++ 0x80 :: List.replicate (zeroBytes data.length) 0) ++ List.replicate (8 + 0) 0 := by
    rw [List.replicate_succ, List.set_append_right _ _ (Nat.le_refl _), Nat.sub_self,
      List.set_cons_zero, List.append_assoc, List.cons_append, List.replicate_append_replicate]
  have hoff : paddedLen data.length - 8 =
      (data ++ 0x80 :: List.replicate (zeroBytes data.length) 0).length := by
    rw [paddedLen_eq, List.length_append, List.length_cons, List.length_replicate]
    omega
  have hlast := copyFromSlice_zeros (data ++ 0x80 :: List.replicate (zeroBytes data.length) 0)
    (toBeBytes 8 (data.length * 8)) 0
  rw [length_toBeBytes] at hlast
  unfold padded
  dsimp only
  rw [hcopied, hmarked, hoff, hlast]
  simp

/-- The padded message fills whole blocks, and no fewer would do. -/
theorem padded_length (data : List UInt8) :
    IsLeast {n | 64 ∣ n ∧ data.length + 9 ≤ n} (padded data).length := by
  have hle := le_paddedLen data.length
  have hlen : (padded data).length = paddedLen data.length := by
    rw [padded_eq, List.length_append, List.length_cons, List.length_append, List.length_replicate,
      length_toBeBytes]
    unfold zeroBytes
    omega
  rw [hlen]
  refine ⟨⟨⟨_, Nat.mul_comm _ _⟩, hle⟩, ?_⟩
  rintro n ⟨⟨k, rfl⟩, hk⟩
  unfold paddedLen
  omega

theorem ofBytes_padded (data : List UInt8) : ofBytes (padded data) = Sha256.pad (ofBytes data) := by
  have hmark : ofByte 0x80 = true :: List.replicate 7 false := rfl
  have hzero : ∀ n, ofBytes (List.replicate n 0) = List.replicate (8 * n) false := by
    intro n
    have h0 : ofByte 0 = List.replicate 8 false := rfl
    rw [ofBytes, List.flatMap_replicate, h0, List.flatten_replicate_replicate, Nat.mul_comm]
  have hbits : Sha256.zeroBits (8 * data.length) = 7 + 8 * zeroBytes data.length := by
    rw [Sha256.zeroBits_eq]
    unfold zeroBytes paddedLen
    omega
  have hcons : ∀ b bytes, ofBytes (b :: bytes) = ofByte b ++ ofBytes bytes := fun _ _ => rfl
  rw [padded_eq, Sha256.pad, length_ofBytes, ofBytes_append, hcons, ofBytes_append, hzero,
    ofBytes_toBeBytes, hmark, hbits, List.cons_append, ← List.append_assoc,
    List.replicate_append_replicate, Nat.mul_comm data.length 8]

/-! ## The loops of a block -/

/-- A loop that fills an array from `s` on, each entry from those before it. -/
theorem foldl_set {g : List (BitVec 32) → Nat → BitVec 32} {v : Nat → BitVec 32}
    {w : List (BitVec 32)} {s : Nat} (hpre : ∀ t < s, w.getD t 0 = v t) (n : Nat)
    (hlen : s + n ≤ w.length)
    (hstep : ∀ w' i, s ≤ i → i < s + n → (∀ t < i, w'.getD t 0 = v t) → g w' i = v i) :
    ((List.range' s n).foldl (fun w i => w.set i (g w i)) w).length = w.length ∧
      ∀ t < s + n, ((List.range' s n).foldl (fun w i => w.set i (g w i)) w).getD t 0 = v t := by
  induction n with
  | zero => exact ⟨rfl, hpre⟩
  | succ n ih =>
    obtain ⟨ihlen, ih⟩ := ih (by omega) fun w' i hs hi => hstep w' i hs (by omega)
    rw [List.range'_1_concat, List.foldl_append, List.foldl_cons, List.foldl_nil]
    refine ⟨by rw [List.length_set, ihlen], fun t ht => ?_⟩
    rw [List.getD_eq_getElem?_getD, List.getElem?_set]
    split
    · rename_i he
      subst he
      rw [if_pos (by rw [ihlen]; omega), Option.getD_some]
      exact hstep _ _ (by omega) (by omega) ih
    · rw [← List.getD_eq_getElem?_getD]
      exact ih t (by omega)

theorem take_drop_four {l : List UInt8} {n : Nat} (h : n + 4 ≤ l.length) :
    (l.drop n).take 4 = [l.getD n 0, l.getD (n + 1) 0, l.getD (n + 2) 0, l.getD (n + 3) 0] := by
  have hget : ∀ i (hi : i < l.length), l.getD i 0 = l[i] := fun i hi => List.getD_eq_getElem l 0 hi
  rw [hget n (by omega), hget (n + 1) (by omega), hget (n + 2) (by omega), hget (n + 3) (by omega),
    List.drop_eq_getElem_cons (by omega), List.drop_eq_getElem_cons (by omega),
    List.drop_eq_getElem_cons (by omega), List.drop_eq_getElem_cons (by omega)]
  rfl

/-- The words that `u32::from_be_bytes` reads are those of the bits. -/
theorem blockWord_ofBytes {block : List UInt8} {i : Nat} (h : i * 4 + 4 ≤ block.length) :
    Sha256.State.blockWord (ofBytes block) i = fromBeBytes [block.getD (i * 4) 0,
      block.getD (i * 4 + 1) 0, block.getD (i * 4 + 2) 0, block.getD (i * 4 + 3) 0] := by
  have hcut : ((ofBytes block).drop (32 * i)).take 32 = ofBytes ((block.drop (i * 4)).take 4) := by
    have hi : 32 * i = 8 * (i * 4) := by omega
    rw [hi, ofBytes, drop_flatMap_digits length_ofByte]
    exact take_flatMap_digits length_ofByte 4 _
  rw [Sha256.State.blockWord, hcut, value_ofBytes, take_drop_four h]
  rfl

theorem rotateRight_eq {n : Nat} (h : n < 32) (x : BitVec 32) :
    x.rotateRight n = Sha256.rotr n x := by
  rw [BitVec.rotateRight_def, Nat.mod_eq_of_lt h]
  rfl

/-- The two loops that fill `w` compute the message schedule. -/
theorem messageSchedule_getD {block : List UInt8} (hlen : block.length = 64) {t : Nat}
    (ht : t < 64) : (messageSchedule block).getD t 0 =
      Sha256.schedule (Sha256.State.blockWord (ofBytes block)) t := by
  have hword : ∀ i < 16, fromBeBytes [block.getD (i * 4) 0, block.getD (i * 4 + 1) 0,
      block.getD (i * 4 + 2) 0, block.getD (i * 4 + 3) 0] =
        Sha256.schedule (Sha256.State.blockWord (ofBytes block)) i := by
    intro i hi
    rw [Sha256.schedule_lt hi, blockWord_ofBytes (by omega)]
  have hzeros : ∀ t < 0, (List.replicate 64 0).getD t 0 =
      Sha256.schedule (Sha256.State.blockWord (ofBytes block)) t := fun _ h => absurd h (by omega)
  obtain ⟨hlen₁, hfirst⟩ := foldl_set hzeros 16 (by simp) fun _ i _ hi _ => hword i (by omega)
  unfold messageSchedule
  rw [List.range_eq_range']
  refine (foldl_set hfirst 48 (by rw [hlen₁]; simp) fun w i hs hi hprev => ?_).2 t ht
  rw [hprev (i - 15) (by omega), hprev (i - 2) (by omega), hprev (i - 16) (by omega),
    hprev (i - 7) (by omega), Sha256.schedule_ge hs]
  simp (disch := omega) only [Sha256.smallSigma0, Sha256.smallSigma1, rotateRight_eq]
  ac_rfl

/-! ## One block -/

def Working.state (v : Working) : Sha256.State := ⟨v.a, v.b, v.c, v.d, v.e, v.f, v.g, v.hh⟩

theorem Working.round_state (v : Working) (k w : BitVec 32) :
    (v.round k w).state = v.state.round k w := by
  simp (disch := omega) only [Working.round, Working.state, Sha256.State.round, Sha256.bigSigma0,
    Sha256.bigSigma1, rotateRight_eq]
  rfl

/-- The loop over the rounds, up to round `n`. -/
theorem foldl_round {w : List (BitVec 32)} {sched : Nat → BitVec 32} (v : Working) {n : Nat}
    (hn : n ≤ 64) (hw : ∀ t < 64, w.getD t 0 = sched t) :
    ((List.range n).foldl (fun (v : Working) i => v.round (K.getD i 0) (w.getD i 0)) v).state =
      v.state.rounds sched n := by
  induction n with
  | zero => rfl
  | succ n ih =>
    rw [List.range_succ, List.foldl_append, List.foldl_cons, List.foldl_nil, Working.round_state,
      ih (by omega), K_eq (by omega), hw n (by omega)]
    rfl

def hashState (h : Vector (BitVec 32) 8) : Sha256.State :=
  ⟨h[0], h[1], h[2], h[3], h[4], h[5], h[6], h[7]⟩

theorem processBlock_spec (h : Vector (BitVec 32) 8) {block : List UInt8} (hlen : block.length = 64) :
    hashState (processBlock h block) = (hashState h).compress (ofBytes block) := by
  have hrounds := foldl_round ⟨h[0], h[1], h[2], h[3], h[4], h[5], h[6], h[7]⟩ (Nat.le_refl 64)
    fun t ht => messageSchedule_getD hlen ht
  exact congrArg (Sha256.State.add (hashState h)) hrounds

/-! ## The digest -/

theorem hashState_H0 : hashState H0 = Sha256.State.initial := by
  unfold hashState Sha256.State.initial
  dsimp only
  rw [Sha256.State.mk.injEq]
  exact ⟨H0_eq 0, H0_eq 1, H0_eq 2, H0_eq 3, H0_eq 4, H0_eq 5, H0_eq 6, H0_eq 7⟩

/-- The loop over the blocks. -/
theorem foldl_processBlock {blocks : List (List UInt8)} (h : Vector (BitVec 32) 8)
    (hlen : ∀ block ∈ blocks, block.length = 64) :
    hashState (blocks.foldl processBlock h) =
      (blocks.map ofBytes).foldl Sha256.State.compress (hashState h) := by
  induction blocks generalizing h with
  | nil => rfl
  | cons block blocks ih =>
    rw [List.foldl_cons, ih _ fun b hb => hlen b (List.mem_cons_of_mem _ hb),
      processBlock_spec h (hlen block (List.mem_cons_self ..)), List.map_cons, List.foldl_cons]

theorem toList_eq_words (h : Vector (BitVec 32) 8) : h.toList = (hashState h).words := by
  obtain ⟨⟨l⟩, hl⟩ := h
  match l, hl with
  | [_, _, _, _, _, _, _, _], _ => rfl

/-- Without an overflow, `sha256` returns the 32 bytes of the digest. -/
theorem sha256_eq {data : List UInt8} (h : data.length < 2 ^ 61) :
    ∃ out, sha256 data = some out ∧ out.length = 32 ∧
      ofBytes out = Sha256.digest (ofBytes data) := by
  have hfits : data.length * 8 < 2 ^ 64 := by omega
  refine ⟨_, if_pos hfits, ?_, ?_⟩
  · rw [length_flatMap_digits fun _ => length_toBeBytes 4 _, Vector.length_toList]
  · have hblocks : (chunksExact 64 (padded data)).map ofBytes =
        chunksExact 512 (Sha256.pad (ofBytes data)) := by
      rw [← ofBytes_padded]
      exact (chunksExact_flatMap length_ofByte (by omega) 64 _).symm
    have hword : ∀ w : BitVec 32, ofBytes (toBeBytes 4 w.toNat) = ofNat 32 w.toNat :=
      fun w => ofBytes_toBeBytes 4 _
    rw [Sha256.digest, ← hashState_H0, ← hblocks,
      ← foldl_processBlock H0 fun _ hb => length_of_mem_chunksExact hb, ← toList_eq_words, ofBytes,
      List.flatMap_assoc]
    exact List.flatMap_congr fun w _ => hword w

end Registry
end OciKernel
