import Mathlib.Algebra.Ring.Nat
import Mathlib.Data.List.Induction
import Mathlib.Tactic.Ring

/-!
# Lib.Bits

Numbers as strings of digits with the most significant one first, in bits and in bytes, and lists cut
into pieces of one length.

* `value`: the number of a bit string; `ofNat w n`: the low `w` bits of `n`.
* `byteValue`, `toBeBytes k n`: the same in bytes.
* `value_flatMap`, `flatMap_toBeBytes`: the bits of the bytes.
* `chunksExact n l`: the pieces of length `n`; a rest that is shorter is left out.
* `chunksExact_flatMap`: cutting a list of items written in `m` digits each, at a multiple of `m`.
-/

namespace Bits

variable {α β : Type*}

/-! ## Bits -/

def value (bits : List Bool) : Nat := bits.foldl (fun n b => 2 * n + b.toNat) 0

def ofNat : Nat → Nat → List Bool
  | 0, _ => []
  | w + 1, n => n.testBit w :: ofNat w n

@[simp] theorem length_ofNat (w n : Nat) : (ofNat w n).length = w := by
  induction w with
  | zero => rfl
  | succ w ih => rw [ofNat, List.length_cons, ih]

theorem foldl_bits (m : Nat) (bits : List Bool) :
    bits.foldl (fun n b => 2 * n + b.toNat) m = m * 2 ^ bits.length + value bits := by
  induction bits using List.reverseRecOn with
  | nil => simp [value]
  | append_singleton bits b ih =>
    rw [value, List.foldl_append, List.foldl_append, ih, ← value, List.length_append, pow_add]
    simp only [List.foldl_cons, List.foldl_nil, List.length_cons, List.length_nil]
    ring

theorem value_cons (b : Bool) (bits : List Bool) :
    value (b :: bits) = b.toNat * 2 ^ bits.length + value bits := by
  rw [value, List.foldl_cons, foldl_bits, Nat.mul_zero, Nat.zero_add]

theorem value_append (x y : List Bool) : value (x ++ y) = value x * 2 ^ y.length + value y := by
  rw [value, List.foldl_append, foldl_bits]
  rfl

theorem value_ofNat (w n : Nat) : value (ofNat w n) = n % 2 ^ w := by
  induction w with
  | zero => simp [ofNat, value, Nat.mod_one]
  | succ w ih =>
    rw [ofNat, value_cons, ih, length_ofNat, Nat.mod_pow_succ, Nat.toNat_testBit]
    ring

/-- The high bits are those of the quotient. -/
theorem ofNat_add (v w n : Nat) : ofNat (v + w) n = ofNat v (n / 2 ^ w) ++ ofNat w n := by
  induction v with
  | zero => rw [Nat.zero_add]; rfl
  | succ v ih =>
    rw [Nat.succ_add, ofNat, ih, ofNat, List.cons_append, Nat.testBit_div_two_pow]

theorem ofNat_mod (w n : Nat) : ofNat w (n % 2 ^ w) = ofNat w n := by
  suffices h : ∀ v ≤ w, ofNat v (n % 2 ^ w) = ofNat v n from h w (Nat.le_refl w)
  intro v hv
  induction v with
  | zero => rfl
  | succ v ih =>
    rw [ofNat, ofNat, ih (by omega), Nat.testBit_mod_two_pow]
    simp [show v < w by omega]

/-! ## Bytes -/

def ofByte (b : UInt8) : List Bool := ofNat 8 b.toNat

theorem length_ofByte (b : UInt8) : (ofByte b).length = 8 := length_ofNat 8 _

def ofBytes (bytes : List UInt8) : List Bool := bytes.flatMap ofByte

theorem length_ofBytes (bytes : List UInt8) : (ofBytes bytes).length = 8 * bytes.length := by
  induction bytes with
  | nil => rfl
  | cons b bytes ih =>
    have hcons : ofBytes (b :: bytes) = ofByte b ++ ofBytes bytes := rfl
    rw [hcons, List.length_append, ih, length_ofByte, List.length_cons]
    omega

def byteValue (bytes : List UInt8) : Nat := bytes.foldl (fun n b => 256 * n + b.toNat) 0

def toBeBytes : Nat → Nat → List UInt8
  | 0, _ => []
  | k + 1, n => UInt8.ofNat (n / 256 ^ k) :: toBeBytes k n

theorem length_toBeBytes (k n : Nat) : (toBeBytes k n).length = k := by
  induction k with
  | zero => rfl
  | succ k ih => rw [toBeBytes, List.length_cons, ih]

theorem value_ofBytes (bytes : List UInt8) : value (ofBytes bytes) = byteValue bytes := by
  induction bytes using List.reverseRecOn with
  | nil => rfl
  | append_singleton bytes b ih =>
    have hb : value (ofByte b) = b.toNat := by
      rw [ofByte, value_ofNat]
      exact Nat.mod_eq_of_lt b.toNat_lt
    have hbits : ofBytes (bytes ++ [b]) = ofBytes bytes ++ ofByte b := by simp [ofBytes]
    rw [hbits, value_append, ih, hb, length_ofByte, byteValue, byteValue, List.foldl_append]
    exact congrArg (· + b.toNat) (Nat.mul_comm _ _)

theorem ofBytes_toBeBytes (k n : Nat) : ofBytes (toBeBytes k n) = ofNat (8 * k) n := by
  induction k with
  | zero => rfl
  | succ k ih =>
    have hbyte : ofByte (UInt8.ofNat (n / 256 ^ k)) = ofNat 8 (n / 2 ^ (8 * k)) := by
      rw [ofByte, UInt8.toNat_ofNat', Nat.pow_mul]
      exact ofNat_mod 8 _
    have hsplit : 8 * (k + 1) = 8 + 8 * k := by omega
    have hcons : ofBytes (toBeBytes (k + 1) n) =
        ofByte (UInt8.ofNat (n / 256 ^ k)) ++ ofBytes (toBeBytes k n) := rfl
    rw [hcons, ih, hbyte, hsplit, ofNat_add]

/-! ## Pieces -/

def chunksExact (n : Nat) (l : List α) : List (List α) :=
  (List.range (l.length / n)).map fun i => (l.drop (n * i)).take n

theorem length_of_mem_chunksExact {n : Nat} {l c : List α} (h : c ∈ chunksExact n l) :
    c.length = n := by
  obtain ⟨i, hi, rfl⟩ := List.mem_map.1 h
  have hle : n * (i + 1) ≤ n * (l.length / n) := Nat.mul_le_mul_left n (List.mem_range.1 hi)
  have hmul := Nat.mul_div_le l.length n
  rw [Nat.mul_succ] at hle
  rw [List.length_take, List.length_drop]
  omega

section Digits

variable {f : α → List β} {m : Nat} (hf : ∀ x, (f x).length = m)

include hf

theorem length_flatMap_digits (l : List α) : (l.flatMap f).length = m * l.length := by
  induction l with
  | nil => rfl
  | cons x l ih =>
    rw [List.flatMap_cons, List.length_append, hf, ih, List.length_cons, Nat.mul_succ, Nat.add_comm]

theorem drop_flatMap_digits (k : Nat) (l : List α) :
    (l.flatMap f).drop (m * k) = (l.drop k).flatMap f := by
  induction k generalizing l with
  | zero => simp
  | succ k ih =>
    cases l with
    | nil => simp
    | cons x l =>
      have hsplit : m * (k + 1) = (f x).length + m * k := by rw [hf, Nat.mul_succ, Nat.add_comm]
      rw [List.flatMap_cons, hsplit, List.drop_length_add_append, ih, List.drop_succ_cons]

theorem take_flatMap_digits (k : Nat) (l : List α) :
    (l.flatMap f).take (m * k) = (l.take k).flatMap f := by
  induction k generalizing l with
  | zero => simp
  | succ k ih =>
    cases l with
    | nil => simp
    | cons x l =>
      have hsplit : m * (k + 1) = (f x).length + m * k := by rw [hf, Nat.mul_succ, Nat.add_comm]
      rw [List.flatMap_cons, hsplit, List.take_length_add_append, ih, List.take_succ_cons,
        List.flatMap_cons]

theorem chunksExact_flatMap (hm : 0 < m) (n : Nat) (l : List α) :
    chunksExact (m * n) (l.flatMap f) = (chunksExact n l).map (·.flatMap f) := by
  have hlen : (l.flatMap f).length / (m * n) = l.length / n := by
    rw [length_flatMap_digits hf, Nat.mul_div_mul_left _ _ hm]
  unfold chunksExact
  rw [hlen, List.map_map]
  refine List.map_congr_left fun i _ => ?_
  rw [Nat.mul_assoc, drop_flatMap_digits hf, take_flatMap_digits hf]
  rfl

end Digits

/-- A piece boundary after each item, and others in between. -/
theorem chunksExact_append {n : Nat} (hn : 0 < n) {x : List α} (y : List α) (k : Nat)
    (hx : x.length = n * k) : chunksExact n (x ++ y) = chunksExact n x ++ chunksExact n y := by
  have hlen : (x ++ y).length / n = k + y.length / n := by
    rw [List.length_append, hx, Nat.mul_add_div hn]
  have hxlen : x.length / n = k := by rw [hx, Nat.mul_div_cancel_left _ hn]
  unfold chunksExact
  rw [hlen, hxlen, List.range_add, List.map_append, List.map_map]
  congr 1
  · refine List.map_congr_left fun i hi => ?_
    have hle : n * (i + 1) ≤ n * k := Nat.mul_le_mul_left n (List.mem_range.1 hi)
    have hfit : n ≤ (x.drop (n * i)).length := by
      rw [List.length_drop, hx]
      rw [Nat.mul_succ] at hle
      omega
    have hdrop : n * i ≤ x.length := by
      rw [Nat.mul_succ] at hle
      omega
    rw [List.drop_append_of_le_length hdrop, List.take_append_of_le_length hfit]
  · refine List.map_congr_left fun i _ => ?_
    have hsplit : n * (k + i) = x.length + n * i := by rw [hx, Nat.mul_add]
    rw [Function.comp_apply, hsplit, List.drop_length_add_append]

theorem chunksExact_flatMap_of_mul {f : α → List β} {n k : Nat} (hn : 0 < n)
    (hf : ∀ x, (f x).length = n * k) (l : List α) :
    chunksExact n (l.flatMap f) = l.flatMap fun x => chunksExact n (f x) := by
  induction l with
  | nil => simp [chunksExact]
  | cons x l ih => rw [List.flatMap_cons, chunksExact_append hn _ k (hf x), ih, List.flatMap_cons]

end Bits
