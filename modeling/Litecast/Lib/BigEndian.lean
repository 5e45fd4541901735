import Mathlib.Data.List.Induction
import Mathlib.Tactic.Ring

/-! Unsigned integers as a fixed number of bytes, most significant first. -/

namespace BigEndian

/-- The low `width` bytes of a number. -/
def encode : Nat → Nat → List UInt8
  | 0, _ => []
  | width + 1, n => encode width (n / 256) ++ [UInt8.ofNat n]

def decode (bytes : List UInt8) : Nat := bytes.foldl (fun n b => 256 * n + b.toNat) 0

@[simp] theorem length_encode (width n : Nat) : (encode width n).length = width := by
  induction width generalizing n with
  | zero => rfl
  | succ width ih => simp [encode, ih]

@[simp] theorem decode_nil : decode [] = 0 := rfl

@[simp] theorem decode_concat (bytes : List UInt8) (b : UInt8) :
    decode (bytes ++ [b]) = 256 * decode bytes + b.toNat := by
  simp [decode]

theorem decode_lt (bytes : List UInt8) : decode bytes < 256 ^ bytes.length := by
  induction bytes using List.reverseRecOn with
  | nil => simp
  | append_singleton bytes b ih =>
    have hb := b.toNat_lt
    rw [decode_concat, List.length_append, List.length_singleton, pow_succ]
    omega

theorem decode_encode {width n : Nat} (h : n < 256 ^ width) : decode (encode width n) = n := by
  induction width generalizing n with
  | zero => simp at h; simp [encode, h]
  | succ width ih =>
    have hdiv : n / 256 < 256 ^ width := by
      rw [pow_succ] at h
      exact Nat.div_lt_of_lt_mul (by rwa [Nat.mul_comm])
    rw [encode, decode_concat, ih hdiv, UInt8.toNat_ofNat']
    omega

/-- A field read and written back gives the same bytes. -/
theorem encode_decode {width : Nat} {bytes : List UInt8} (h : bytes.length = width) :
    encode width (decode bytes) = bytes := by
  subst h
  induction bytes using List.reverseRecOn with
  | nil => rfl
  | append_singleton bytes b ih =>
    have hb := b.toNat_lt
    have hdiv : (256 * decode bytes + b.toNat) / 256 = decode bytes := by omega
    have hlast : UInt8.ofNat (256 * decode bytes + b.toNat) = b := by
      apply UInt8.toNat_inj.mp
      rw [UInt8.toNat_ofNat']
      omega
    rw [decode_concat, List.length_append, List.length_singleton, encode, hdiv, ih, hlast]

end BigEndian
