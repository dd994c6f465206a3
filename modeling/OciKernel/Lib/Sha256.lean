import Mathlib.Data.Nat.Nth
import Mathlib.Data.Nat.Prime.Infinite
import Mathlib.Order.Nat
import OciKernel.Lib.Bits

/-!
# Lib.Sha256

SHA-256 of FIPS 180-4, on messages of bits. The constants are what the standard says that they stand
for: the first 32 bits of the fractional parts of the roots of the first primes.

* `digest`: padding, message schedule and compression over all blocks.
* `zeroBits_eq`: the number of zero bits in the padding.
* `nth_prime_eq`, `rootBits_eq`: how to compute the constants.
-/

namespace Sha256

open Bits

abbrev Word := BitVec 32

/-! ## Functions -/

def rotr (n : Nat) (x : Word) : Word := x >>> n ||| x <<< (32 - n)

def ch (x y z : Word) : Word := x &&& y ^^^ ~~~x &&& z

def maj (x y z : Word) : Word := x &&& y ^^^ x &&& z ^^^ y &&& z

def bigSigma0 (x : Word) : Word := rotr 2 x ^^^ rotr 13 x ^^^ rotr 22 x

def bigSigma1 (x : Word) : Word := rotr 6 x ^^^ rotr 11 x ^^^ rotr 25 x

def smallSigma0 (x : Word) : Word := rotr 7 x ^^^ rotr 18 x ^^^ x >>> 3

def smallSigma1 (x : Word) : Word := rotr 17 x ^^^ rotr 19 x ^^^ x >>> 10

/-! ## Constants -/

/-- The first 32 bits of the fractional part of the `d`-th root of `p`. -/
def rootBits (d p : Nat) : Word :=
  BitVec.ofNat 32 (Nat.findGreatest (fun n => n ^ d ≤ p * 2 ^ (32 * d)) (p * 2 ^ (32 * d)))

noncomputable def constant (t : Nat) : Word := rootBits 3 (Nat.nth Nat.Prime t)

/-! ## The hash -/

/-- The zero bits of the padding bring the length to 448 modulo 512. -/
noncomputable def zeroBits (length : Nat) : Nat := sInf {k | (length + 1 + k) % 512 = 448}

noncomputable def pad (message : List Bool) : List Bool :=
  message ++ true :: (List.replicate (zeroBits message.length) false ++ ofNat 64 message.length)

/-- The words `W_t` of a block with the words `m`. -/
def schedule (m : Nat → Word) (t : Nat) : Word :=
  if t < 16 then m t
  else smallSigma1 (schedule m (t - 2)) + schedule m (t - 7) + smallSigma0 (schedule m (t - 15)) +
    schedule m (t - 16)

structure State where
  a : Word
  b : Word
  c : Word
  d : Word
  e : Word
  f : Word
  g : Word
  h : Word

namespace State

noncomputable def initial : State :=
  let root i := rootBits 2 (Nat.nth Nat.Prime i)
  ⟨root 0, root 1, root 2, root 3, root 4, root 5, root 6, root 7⟩

def round (k w : Word) (s : State) : State :=
  let t₁ := s.h + bigSigma1 s.e + ch s.e s.f s.g + k + w
  let t₂ := bigSigma0 s.a + maj s.a s.b s.c
  ⟨t₁ + t₂, s.a, s.b, s.c, s.d + t₁, s.e, s.f, s.g⟩

/-- The state after the first `t` rounds. -/
noncomputable def rounds (w : Nat → Word) (s : State) : Nat → State
  | 0 => s
  | t + 1 => (rounds w s t).round (constant t) (w t)

def add (s s' : State) : State :=
  ⟨s.a + s'.a, s.b + s'.b, s.c + s'.c, s.d + s'.d, s.e + s'.e, s.f + s'.f, s.g + s'.g, s.h + s'.h⟩

def blockWord (block : List Bool) (i : Nat) : Word :=
  BitVec.ofNat 32 (value ((block.drop (32 * i)).take 32))

noncomputable def compress (s : State) (block : List Bool) : State :=
  s.add (s.rounds (schedule (blockWord block)) 64)

def words (s : State) : List Word := [s.a, s.b, s.c, s.d, s.e, s.f, s.g, s.h]

end State

noncomputable def digest (message : List Bool) : List Bool :=
  ((chunksExact 512 (pad message)).foldl State.compress State.initial).words.flatMap
    fun w => ofNat 32 w.toNat

def hexDigits (bits : List Bool) : List Char :=
  (chunksExact 4 bits).map fun group => "0123456789abcdef".toList.getD (value group) '0'

/-! ## Lemmas -/

theorem zeroBits_eq (length : Nat) : zeroBits length = (959 - length % 512) % 512 := by
  have hmem : (959 - length % 512) % 512 ∈ {k | (length + 1 + k) % 512 = 448} := by
    have := Nat.mod_lt length (show 0 < 512 by decide)
    show (length + 1 + (959 - length % 512) % 512) % 512 = 448
    omega
  refine Nat.le_antisymm (Nat.sInf_le hmem) (le_csInf ⟨_, hmem⟩ fun k hk => ?_)
  have hk : (length + 1 + k) % 512 = 448 := hk
  omega

theorem schedule_lt {m : Nat → Word} {t : Nat} (h : t < 16) : schedule m t = m t := by
  rw [schedule, if_pos h]

theorem schedule_ge {m : Nat → Word} {t : Nat} (h : 16 ≤ t) :
    schedule m t = smallSigma1 (schedule m (t - 2)) + schedule m (t - 7) +
      smallSigma0 (schedule m (t - 15)) + schedule m (t - 16) := by
  rw [schedule, if_neg (Nat.not_lt.2 h)]

/-- A table of the values below a bound that satisfy a predicate. -/
theorem nth_eq_of_getElem? {p : Nat → Prop} [DecidablePred p] {n t q : Nat}
    (h : ((List.range n).filter p)[t]? = some q) : Nat.nth p t = q := by
  induction n with
  | zero => cases h
  | succ n ih =>
    rw [List.range_succ, List.filter_append, List.getElem?_append] at h
    split at h
    · exact ih h
    · rename_i hge
      have hcount : Nat.count p n = ((List.range n).filter p).length := List.countP_eq_length_filter
      by_cases hp : p n
      · rw [List.filter_cons_of_pos (by simpa using hp), List.filter_nil, List.getElem?_singleton] at h
        split at h
        · rename_i hzero
          have ht : t = Nat.count p n := by omega
          rw [ht, Nat.nth_count hp]
          exact Option.some.inj h
        · cases h
      · rw [List.filter_cons_of_neg (by simpa using hp)] at h
        cases h

/-- Trial division, up to the square root. -/
theorem prime_iff_of_lt_sq {n b : Nat} (h : n < b * b) :
    n.Prime ↔ 2 ≤ n ∧ ∀ m < b, 2 ≤ m → m < n → ¬ m ∣ n := by
  constructor
  · intro hp
    exact ⟨hp.two_le, fun m _ h2 hlt => (Nat.prime_def_lt'.1 hp).2 m h2 hlt⟩
  · rintro ⟨h2, hall⟩
    refine Nat.prime_def_le_sqrt.2 ⟨h2, fun m hm hsqrt => ?_⟩
    exact hall m (hsqrt.trans_lt (Nat.sqrt_lt.2 h)) hm (hsqrt.trans_lt (Nat.sqrt_lt_self h2))

theorem rootBits_eq {d p n : Nat} (hd : d ≠ 0) (hle : n ^ d ≤ p * 2 ^ (32 * d))
    (hlt : p * 2 ^ (32 * d) < (n + 1) ^ d) : rootBits d p = BitVec.ofNat 32 n := by
  have hbound : n ≤ p * 2 ^ (32 * d) := Nat.le_trans (Nat.le_self_pow hd n) hle
  have hroot : Nat.findGreatest (fun n => n ^ d ≤ p * 2 ^ (32 * d)) (p * 2 ^ (32 * d)) = n := by
    refine Nat.findGreatest_eq_iff.2 ⟨hbound, fun _ => hle, fun m hm _ hmle => ?_⟩
    have : (n + 1) ^ d ≤ m ^ d := Nat.pow_le_pow_left hm d
    omega
  rw [rootBits, hroot]

end Sha256
