import Mbroker.Lib.CString

/-!
# Numbers in bytes

`wordAt bytes` is the number with these bytes, the lowest first, as a machine word lies
in memory; `wordByte v k` is byte `k` of a number.  Either undoes the other, for `n`
bytes and numbers below `256 ^ n`.  An `int` of `Lib.CString` is four such bytes.
-/

namespace CLib

/-- Byte `k` of a number. -/
def wordByte (v k : Nat) : UInt8 := UInt8.ofNat (v / 256 ^ k)

def wordAt (bytes : List UInt8) : Nat := bytes.foldr (fun b v => b.toNat + 256 * v) 0

theorem wordAt_cons (b : UInt8) (bytes : List UInt8) :
    wordAt (b :: bytes) = b.toNat + 256 * wordAt bytes := rfl

theorem wordByte_succ (v k : Nat) : wordByte v (k + 1) = wordByte (v / 256) k := by
  unfold wordByte
  rw [Nat.pow_succ, Nat.mul_comm, Nat.div_div_eq_div_mul]

theorem wordAt_lt (bytes : List UInt8) : wordAt bytes < 256 ^ bytes.length := by
  induction bytes with
  | nil => exact Nat.one_pos
  | cons b bytes ih =>
    have hb := b.toNat_lt
    rw [wordAt_cons, List.length_cons, Nat.pow_succ]
    omega

/-- The bytes of a number give the number. -/
theorem wordAt_bytes (v n : Nat) : wordAt ((List.range n).map (wordByte v)) = v % 256 ^ n := by
  induction n generalizing v with
  | zero => exact (Nat.mod_one v).symm
  | succ n ih =>
    have hrest : (List.range n).map (fun k => wordByte v (k + 1)) =
        (List.range n).map (wordByte (v / 256)) :=
      List.map_congr_left fun k _ => wordByte_succ v k
    have hfirst : (wordByte v 0).toNat = v % 256 := by
      simp [wordByte]
    rw [List.range_succ_eq_map, List.map_cons, List.map_map, wordAt_cons, hfirst]
    show v % 256 + 256 * wordAt ((List.range n).map (fun k => wordByte v (k + 1))) = _
    rw [hrest, ih, Nat.pow_succ, Nat.mul_comm (256 ^ n), Nat.mod_mul]

/-- The number of some bytes has these bytes. -/
theorem wordByte_at (bytes : List UInt8) (k : Nat) (hk : k < bytes.length) :
    wordByte (wordAt bytes) k = bytes[k] := by
  induction bytes generalizing k with
  | nil => cases hk
  | cons b bytes ih =>
    have hb := b.toNat_lt
    rw [wordAt_cons]
    cases k with
    | zero =>
      apply UInt8.toNat_inj.mp
      show (UInt8.ofNat ((b.toNat + 256 * wordAt bytes) / 256 ^ 0)).toNat = b.toNat
      rw [UInt8.toNat_ofNat', Nat.pow_zero, Nat.div_one]
      omega
    | succ k =>
      have hdiv : (b.toNat + 256 * wordAt bytes) / 256 = wordAt bytes := by omega
      rw [wordByte_succ, hdiv]
      exact ih k (Nat.lt_of_succ_lt_succ hk)

/-! ## `int` -/

theorem intOfBytes_bounds (b0 b1 b2 b3 : UInt8) :
    -2 ^ 31 ≤ intOfBytes b0 b1 b2 b3 ∧ intOfBytes b0 b1 b2 b3 < 2 ^ 31 := by
  unfold intOfBytes
  constructor
  · exact Int.le_bmod (by decide)
  · exact Int.bmod_lt (by decide)

/-- The bytes that an `int` was read from are its bytes. -/
theorem intByte_ofBytes (b0 b1 b2 b3 : UInt8) (k : Nat) (hk : k < 4) :
    intByte (intOfBytes b0 b1 b2 b3) k = [b0, b1, b2, b3][k] := by
  have h0 := b0.toNat_lt
  have h1 := b1.toNat_lt
  have h2 := b2.toNat_lt
  have h3 := b3.toNat_lt
  have hword : (intOfBytes b0 b1 b2 b3 % 2 ^ 32).toNat =
      b0.toNat + 256 * b1.toNat + 65536 * b2.toNat + 16777216 * b3.toNat := by
    have hmod : intOfBytes b0 b1 b2 b3 % ((2 ^ 32 : Nat) : Int) =
        (b0.toNat + 256 * b1.toNat + 65536 * b2.toNat + 16777216 * b3.toNat : Nat) %
          ((2 ^ 32 : Nat) : Int) := Int.bmod_emod
    omega
  apply UInt8.toNat_inj.mp
  rw [intByte_toNat, hword]
  match k, hk with
  | 0, _ =>
    show _ = b0.toNat
    omega
  | 1, _ =>
    show _ = b1.toNat
    omega
  | 2, _ =>
    show _ = b2.toNat
    omega
  | 3, _ =>
    show _ = b3.toNat
    omega

end CLib
