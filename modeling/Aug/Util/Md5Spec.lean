import Aug.Lib.Blocks
import Aug.Util.Md5
import Mathlib.Tactic.IntervalCases

/-!
# MD5 by the book

The algorithm as it is specified: a message is padded, and its blocks are folded by sixty-four operations on a vector
of four words that moves on by one place with each. The unrolled steps of the program do the same without moving the
words.
-/

namespace Aug.Util

open Aug.Lib Aug.Sys

/-- The functions of the four rounds. -/
def roundF (round : ℕ) (x y z : UInt32) : UInt32 :=
  match round with
  | 0 => (x &&& y) ||| (~~~x &&& z)
  | 1 => (x &&& z) ||| (y &&& ~~~z)
  | 2 => x ^^^ y ^^^ z
  | _ => y ^^^ (x ||| ~~~z)

/-- The word of the block for an operation. -/
def roundWord (i : ℕ) : ℕ :=
  match i / 16 with
  | 0 => i
  | 1 => (5 * i + 1) % 16
  | 2 => (3 * i + 5) % 16
  | _ => 7 * i % 16

/-- The rotations of the four rounds. -/
def roundShift (i : ℕ) : ℕ :=
  (([[7, 12, 17, 22], [5, 9, 14, 20], [4, 11, 16, 23], [6, 10, 15, 21]].getD (i / 16) []).getD (i % 4) 0)

/-- The table of constants, from the sines of the first sixty-four integers. -/
def sineTable : List UInt32 :=
  [0xd76aa478, 0xe8c7b756, 0x242070db, 0xc1bdceee, 0xf57c0faf, 0x4787c62a, 0xa8304613, 0xfd469501,
    0x698098d8, 0x8b44f7af, 0xffff5bb1, 0x895cd7be, 0x6b901122, 0xfd987193, 0xa679438e, 0x49b40821,
    0xf61e2562, 0xc040b340, 0x265e5a51, 0xe9b6c7aa, 0xd62f105d, 0x02441453, 0xd8a1e681, 0xe7d3fbc8,
    0x21e1cde6, 0xc33707d6, 0xf4d50d87, 0x455a14ed, 0xa9e3e905, 0xfcefa3f8, 0x676f02d9, 0x8d2a4c8a,
    0xfffa3942, 0x8771f681, 0x6d9d6122, 0xfde5380c, 0xa4beea44, 0x4bdecfa9, 0xf6bb4b60, 0xbebfbc70,
    0x289b7ec6, 0xeaa127fa, 0xd4ef3085, 0x04881d05, 0xd9d4d039, 0xe6db99e5, 0x1fa27cf8, 0xc4ac5665,
    0xf4292244, 0x432aff97, 0xab9423a7, 0xfc93a039, 0x655b59c3, 0x8f0ccc92, 0xffeff47d, 0x85845dd1,
    0x6fa87e4f, 0xfe2ce6e0, 0xa3014314, 0x4e0811a1, 0xf7537e82, 0xbd3af235, 0x2ad7d2bb, 0xeb86d391]

/-- A word turned to the left. -/
def rotateLeft (w : UInt32) (s : ℕ) : UInt32 := ⟨w.toBitVec.rotateLeft s⟩

/-- One operation: the first word of the vector is replaced, and the vector moves on. -/
def operation (words : List UInt32) (v : Md5Words) (i : ℕ) : Md5Words :=
  ⟨v.d, v.b + rotateLeft (v.a + roundF (i / 16) v.b v.c v.d + words.getD (roundWord i) 0 + sineTable.getD i 0) (roundShift i),
    v.b, v.c⟩

/-- The fold of a block. -/
def compress (h : Md5Words) (words : List UInt32) : Md5Words :=
  let v := (List.range 64).foldl (operation words) h
  ⟨h.a + v.a, h.b + v.b, h.c + v.c, h.d + v.d⟩

/-- The registers in the order in which a step takes them. -/
def order (i : ℕ) : Md5Register × Md5Register × Md5Register × Md5Register :=
  match i % 4 with
  | 0 => (.a, .b, .c, .d)
  | 1 => (.d, .a, .b, .c)
  | 2 => (.c, .d, .a, .b)
  | _ => (.b, .c, .d, .a)

/-- The vector that the registers stand for. -/
def vector (i : ℕ) (regs : Md5Words) : Md5Words :=
  ⟨regs.get (order i).1, regs.get (order i).2.1, regs.get (order i).2.2.1, regs.get (order i).2.2.2⟩

theorem neZero_four : NeZero 4 := inferInstance

/-- The arguments that a step should have. -/
def stepOf (i : ℕ) : Md5Step :=
  ⟨@Fin.ofNat 4 neZero_four (i / 16), (order i).1, (order i).2.1, (order i).2.2.1, (order i).2.2.2, roundWord i, sineTable.getD i 0,
    .ofNat (roundShift i)⟩

/-- The steps have these arguments. -/
theorem md5steps_eq : md5steps = (List.range 64).map stepOf := by decide +kernel

/-- The choice between two words is made bit by bit. -/
theorem md5F1_eq (x y z : UInt32) : md5F1 x y z = (x &&& y) ||| (~~~x &&& z) := by
  apply UInt32.toBitVec_inj.mp
  rw [md5F1]
  simp only [UInt32.toBitVec_xor, UInt32.toBitVec_and, UInt32.toBitVec_or, UInt32.toBitVec_not]
  apply BitVec.eq_of_getLsbD_eq
  intro i hi
  simp only [BitVec.getLsbD_xor, BitVec.getLsbD_and, BitVec.getLsbD_or, BitVec.getLsbD_not, hi, decide_true,
    Bool.true_and]
  cases x.toBitVec.getLsbD i <;> cases y.toBitVec.getLsbD i <;> cases z.toBitVec.getLsbD i <;> rfl

/-- The functions are the same. -/
theorem md5F_eq {i : ℕ} (hi : i < 64) (x y z : UInt32) : md5F (.ofNat 4 (i / 16)) x y z = roundF (i / 16) x y z := by
  have hround : i / 16 < 4 := Nat.div_lt_of_lt_mul hi
  generalize i / 16 = round at hround
  interval_cases round
  · exact md5F1_eq x y z
  · have hcomm : roundF 1 x y z = (z &&& x) ||| (~~~z &&& y) := by
      rw [roundF, UInt32.and_comm x z, UInt32.and_comm y]
    rw [hcomm]
    exact md5F1_eq z x y
  · rfl
  · rfl

theorem shifts_eq (w : UInt32) {s : ℕ} (hpos : 0 < s) (hless : s < 32) :
    w <<< UInt32.ofNat s ||| w >>> (32 - UInt32.ofNat s) = rotateLeft w s := by
  have hs : (UInt32.ofNat s).toNat = s := by
    rw [UInt32.toNat_ofNat']
    omega
  have hleft : ((UInt32.ofNat s).toBitVec % 32).toNat = s % 32 := by
    rw [BitVec.toNat_umod, UInt32.toNat_toBitVec, hs]
    rfl
  have hright : ((32 - UInt32.ofNat s).toBitVec % 32).toNat = 32 - s % 32 := by
    rw [BitVec.toNat_umod, UInt32.toNat_toBitVec, UInt32.toNat_sub, hs]
    change (2 ^ 32 - s + 32) % 2 ^ 32 % 32 = 32 - s % 32
    omega
  apply UInt32.toBitVec_inj.mp
  rw [UInt32.toBitVec_or, UInt32.toBitVec_shiftLeft, UInt32.toBitVec_shiftRight, BitVec.shiftLeft_eq',
    BitVec.ushiftRight_eq', hleft, hright, rotateLeft, BitVec.rotateLeft_def]

/-- Every operation turns by less than a word. -/
theorem roundShift_lt {i : ℕ} (hi : i < 64) : 0 < roundShift i ∧ roundShift i < 32 := by
  have hall : ∀ i : Fin 64, 0 < roundShift i ∧ roundShift i < 32 := by decide +kernel
  exact hall ⟨i, hi⟩

/-- A step replaces the register that is first in the vector, and the vector moves on. -/
theorem vector_step (words : List UInt32) (regs : Md5Words) {i : ℕ} (hi : i < 64) :
    vector (i + 1) (md5step words regs (stepOf i)) = operation words (vector i regs) i := by
  obtain ⟨hpos, hless⟩ := roundShift_lt hi
  have hvalue : md5step words regs (stepOf i) = regs.set (order i).1 (operation words (vector i regs) i).b := by
    rw [md5step, stepOf]
    dsimp only
    rw [shifts_eq _ hpos hless, md5F_eq hi, operation, vector]
    dsimp only
    rw [UInt32.add_comm _ (regs.get (order i).2.1), UInt32.add_assoc, UInt32.add_assoc]
  have hrest : operation words (vector i regs) i = ⟨regs.get (order i).2.2.2, (operation words (vector i regs) i).b,
      regs.get (order i).2.1, regs.get (order i).2.2.1⟩ := rfl
  rw [hvalue, hrest]
  generalize (operation words (vector i regs) i).b = value
  have hturn : i % 4 = 0 ∧ (i + 1) % 4 = 1 ∨ i % 4 = 1 ∧ (i + 1) % 4 = 2 ∨ i % 4 = 2 ∧ (i + 1) % 4 = 3 ∨
      i % 4 = 3 ∧ (i + 1) % 4 = 0 := by
    omega
  rcases hturn with ⟨hi, hnext⟩ | ⟨hi, hnext⟩ | ⟨hi, hnext⟩ | ⟨hi, hnext⟩
  all_goals
    rw [vector, order, order, hi, hnext]
    rfl

/-- The unrolled steps fold a block. -/
theorem md5transform_eq (buf : Md5Words) (words : List UInt32) : md5transform buf words = compress buf words := by
  have hsteps (n : ℕ) (hn : n ≤ 64) : vector n (((List.range n).map stepOf).foldl (md5step words) buf) =
      (List.range n).foldl (operation words) buf := by
    induction n with
    | zero => rfl
    | succ n ih =>
      rw [List.range_succ, List.map_append, List.foldl_append, List.foldl_append, ← ih (Nat.le_of_succ_le hn)]
      exact vector_step words _ hn
  have hall := hsteps 64 le_rfl
  have hvector (regs : Md5Words) : vector 64 regs = regs := rfl
  rw [hvector] at hall
  rw [md5transform, md5steps_eq, compress, hall]

/-! ## Messages -/

/-- The words of a block of bytes, each with its lowest byte first. -/
def blockWords (block : List UInt8) : List UInt32 := wordsOf .little block

/-- The padding of a message: a bit, zeros up to a length of 56 modulo 64, and the number of bits modulo `2 ^ 64`. -/
def padding (length : ℕ) : List UInt8 :=
  0x80 :: List.replicate ((119 - length % 64) % 64) 0 ++ Endian.bytes .little 8 (8 * length % 2 ^ 64)

/-- The hash of a message. -/
def digest (message : List UInt8) : List UInt8 :=
  let padded := message ++ padding message.length
  let hash := (absorb 64 (fun h block => compress h (blockWords block)) (initmd5 []).buf padded).1
  hash.list.flatMap fun word => Endian.bytes .little 4 word.toNat

end Aug.Util
