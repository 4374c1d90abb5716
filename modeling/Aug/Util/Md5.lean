import Aug.Sys.Endian

/-!
# MD5

The accumulation of `md5.c`. A context counts the bits, collects the bytes of a block in memory and folds each full
block into four words. The host may lay out words from either end: where it begins with the highest byte, the block is
reversed in place before it is read as words, and so is the result before it is copied out.
-/

namespace Aug.Util

open Aug.Lib Aug.Sys

/-- The four words of a hash. -/
structure Md5Words where
  a : UInt32
  b : UInt32
  c : UInt32
  d : UInt32
deriving DecidableEq

/-- One of the four. -/
inductive Md5Register where
  | a
  | b
  | c
  | d
deriving DecidableEq

namespace Md5Words

def get (r : Md5Register) (w : Md5Words) : UInt32 :=
  match r with
  | .a => w.a
  | .b => w.b
  | .c => w.c
  | .d => w.d

def set (r : Md5Register) (value : UInt32) (w : Md5Words) : Md5Words :=
  match r with
  | .a => { w with a := value }
  | .b => { w with b := value }
  | .c => { w with c := value }
  | .d => { w with d := value }

def list (w : Md5Words) : List UInt32 := [w.a, w.b, w.c, w.d]

end Md5Words

/-- `F1` to `F4`. -/
def md5F1 (x y z : UInt32) : UInt32 := z ^^^ (x &&& (y ^^^ z))
def md5F2 (x y z : UInt32) : UInt32 := md5F1 z x y
def md5F3 (x y z : UInt32) : UInt32 := x ^^^ y ^^^ z
def md5F4 (x y z : UInt32) : UInt32 := y ^^^ (x ||| ~~~z)

/-- The arguments of one `MD5STEP`: the function by its number, the registers, the word of the block, the constant that
is added to it, and the shift. -/
structure Md5Step where
  f : Fin 4
  w : Md5Register
  x : Md5Register
  y : Md5Register
  z : Md5Register
  word : ℕ
  constant : UInt32
  s : UInt32
deriving DecidableEq

/-- The function of a step. -/
def md5F (f : Fin 4) (x y z : UInt32) : UInt32 :=
  match f with
  | 0 => md5F1 x y z
  | 1 => md5F2 x y z
  | 2 => md5F3 x y z
  | 3 => md5F4 x y z

/-- `MD5STEP`. -/
def md5step (words : List UInt32) (regs : Md5Words) (step : Md5Step) : Md5Words :=
  let data := words.getD step.word 0 + step.constant
  let w := regs.get step.w + (md5F step.f (regs.get step.x) (regs.get step.y) (regs.get step.z) + data)
  let w := w <<< step.s ||| w >>> (32 - step.s)
  regs.set step.w (w + regs.get step.x)

/-- The steps of `MD5Transform`. -/
def md5steps : List Md5Step :=
  [⟨0, .a, .b, .c, .d, 0, 0xd76aa478, 7⟩,
    ⟨0, .d, .a, .b, .c, 1, 0xe8c7b756, 12⟩,
    ⟨0, .c, .d, .a, .b, 2, 0x242070db, 17⟩,
    ⟨0, .b, .c, .d, .a, 3, 0xc1bdceee, 22⟩,
    ⟨0, .a, .b, .c, .d, 4, 0xf57c0faf, 7⟩,
    ⟨0, .d, .a, .b, .c, 5, 0x4787c62a, 12⟩,
    ⟨0, .c, .d, .a, .b, 6, 0xa8304613, 17⟩,
    ⟨0, .b, .c, .d, .a, 7, 0xfd469501, 22⟩,
    ⟨0, .a, .b, .c, .d, 8, 0x698098d8, 7⟩,
    ⟨0, .d, .a, .b, .c, 9, 0x8b44f7af, 12⟩,
    ⟨0, .c, .d, .a, .b, 10, 0xffff5bb1, 17⟩,
    ⟨0, .b, .c, .d, .a, 11, 0x895cd7be, 22⟩,
    ⟨0, .a, .b, .c, .d, 12, 0x6b901122, 7⟩,
    ⟨0, .d, .a, .b, .c, 13, 0xfd987193, 12⟩,
    ⟨0, .c, .d, .a, .b, 14, 0xa679438e, 17⟩,
    ⟨0, .b, .c, .d, .a, 15, 0x49b40821, 22⟩,
    ⟨1, .a, .b, .c, .d, 1, 0xf61e2562, 5⟩,
    ⟨1, .d, .a, .b, .c, 6, 0xc040b340, 9⟩,
    ⟨1, .c, .d, .a, .b, 11, 0x265e5a51, 14⟩,
    ⟨1, .b, .c, .d, .a, 0, 0xe9b6c7aa, 20⟩,
    ⟨1, .a, .b, .c, .d, 5, 0xd62f105d, 5⟩,
    ⟨1, .d, .a, .b, .c, 10, 0x02441453, 9⟩,
    ⟨1, .c, .d, .a, .b, 15, 0xd8a1e681, 14⟩,
    ⟨1, .b, .c, .d, .a, 4, 0xe7d3fbc8, 20⟩,
    ⟨1, .a, .b, .c, .d, 9, 0x21e1cde6, 5⟩,
    ⟨1, .d, .a, .b, .c, 14, 0xc33707d6, 9⟩,
    ⟨1, .c, .d, .a, .b, 3, 0xf4d50d87, 14⟩,
    ⟨1, .b, .c, .d, .a, 8, 0x455a14ed, 20⟩,
    ⟨1, .a, .b, .c, .d, 13, 0xa9e3e905, 5⟩,
    ⟨1, .d, .a, .b, .c, 2, 0xfcefa3f8, 9⟩,
    ⟨1, .c, .d, .a, .b, 7, 0x676f02d9, 14⟩,
    ⟨1, .b, .c, .d, .a, 12, 0x8d2a4c8a, 20⟩,
    ⟨2, .a, .b, .c, .d, 5, 0xfffa3942, 4⟩,
    ⟨2, .d, .a, .b, .c, 8, 0x8771f681, 11⟩,
    ⟨2, .c, .d, .a, .b, 11, 0x6d9d6122, 16⟩,
    ⟨2, .b, .c, .d, .a, 14, 0xfde5380c, 23⟩,
    ⟨2, .a, .b, .c, .d, 1, 0xa4beea44, 4⟩,
    ⟨2, .d, .a, .b, .c, 4, 0x4bdecfa9, 11⟩,
    ⟨2, .c, .d, .a, .b, 7, 0xf6bb4b60, 16⟩,
    ⟨2, .b, .c, .d, .a, 10, 0xbebfbc70, 23⟩,
    ⟨2, .a, .b, .c, .d, 13, 0x289b7ec6, 4⟩,
    ⟨2, .d, .a, .b, .c, 0, 0xeaa127fa, 11⟩,
    ⟨2, .c, .d, .a, .b, 3, 0xd4ef3085, 16⟩,
    ⟨2, .b, .c, .d, .a, 6, 0x04881d05, 23⟩,
    ⟨2, .a, .b, .c, .d, 9, 0xd9d4d039, 4⟩,
    ⟨2, .d, .a, .b, .c, 12, 0xe6db99e5, 11⟩,
    ⟨2, .c, .d, .a, .b, 15, 0x1fa27cf8, 16⟩,
    ⟨2, .b, .c, .d, .a, 2, 0xc4ac5665, 23⟩,
    ⟨3, .a, .b, .c, .d, 0, 0xf4292244, 6⟩,
    ⟨3, .d, .a, .b, .c, 7, 0x432aff97, 10⟩,
    ⟨3, .c, .d, .a, .b, 14, 0xab9423a7, 15⟩,
    ⟨3, .b, .c, .d, .a, 5, 0xfc93a039, 21⟩,
    ⟨3, .a, .b, .c, .d, 12, 0x655b59c3, 6⟩,
    ⟨3, .d, .a, .b, .c, 3, 0x8f0ccc92, 10⟩,
    ⟨3, .c, .d, .a, .b, 10, 0xffeff47d, 15⟩,
    ⟨3, .b, .c, .d, .a, 1, 0x85845dd1, 21⟩,
    ⟨3, .a, .b, .c, .d, 8, 0x6fa87e4f, 6⟩,
    ⟨3, .d, .a, .b, .c, 15, 0xfe2ce6e0, 10⟩,
    ⟨3, .c, .d, .a, .b, 6, 0xa3014314, 15⟩,
    ⟨3, .b, .c, .d, .a, 13, 0x4e0811a1, 21⟩,
    ⟨3, .a, .b, .c, .d, 4, 0xf7537e82, 6⟩,
    ⟨3, .d, .a, .b, .c, 11, 0xbd3af235, 10⟩,
    ⟨3, .c, .d, .a, .b, 2, 0x2ad7d2bb, 15⟩,
    ⟨3, .b, .c, .d, .a, 9, 0xeb86d391, 21⟩]

/-- `MD5Transform`. -/
def md5transform (buf : Md5Words) (words : List UInt32) : Md5Words :=
  let regs := md5steps.foldl (md5step words) buf
  ⟨buf.a + regs.a, buf.b + regs.b, buf.c + regs.c, buf.d + regs.d⟩

/-- A word that is put together from the bytes of a block. -/
def reversedWord (buf : List UInt8) : UInt32 :=
  let byte (i : ℕ) : UInt32 := (buf.getD i 0).toUInt32
  (byte 3 <<< 8 ||| byte 2) <<< 16 ||| (byte 1 <<< 8 ||| byte 0)

/-- `byteReverse`, which does nothing where words begin with the lowest byte. -/
def byteReverse (endian : Endian) (longs : ℕ) (buf : List UInt8) : List UInt8 :=
  match endian, longs with
  | .little, _ => buf
  | .big, 0 => buf
  | .big, longs + 1 => Endian.bytes .big 4 (reversedWord buf).toNat ++ byteReverse .big longs (buf.drop 4)

/-- The block as it is read in words. -/
def wordsOf (endian : Endian) (buf : List UInt8) : List UInt32 :=
  (List.range 16).map fun k => .ofNat (endian.value ((buf.drop (4 * k)).take 4))

/-- `struct aug_md5context`. -/
structure Md5Context where
  buf : Md5Words
  bits0 : UInt32
  bits1 : UInt32
  inbuf : List UInt8
deriving DecidableEq

/-- `aug_initmd5`, which leaves the block as it is. -/
def initmd5 (inbuf : List UInt8) : Md5Context where
  buf := ⟨0x67452301, 0xefcdab89, 0x98badcfe, 0x10325476⟩
  bits0 := 0
  bits1 := 0
  inbuf := inbuf

namespace Md5Context

/-- Reverse the block and fold it. -/
def transform (endian : Endian) (ctx : Md5Context) : Md5Context :=
  let inbuf := byteReverse endian 16 ctx.inbuf
  { ctx with buf := md5transform ctx.buf (wordsOf endian inbuf), inbuf }

/-- `memcpy` into the block; undefined where it leaves the block. -/
def copy (i : ℕ) (bytes : List UInt8) (ctx : Md5Context) : Option Md5Context :=
  (store ctx.inbuf i bytes).map fun inbuf => { ctx with inbuf }

/-- The loop of `aug_appendmd5` over full blocks, of which there are no more than there are rounds. -/
def blocks (endian : Endian) : ℕ → List UInt8 → Md5Context → Option (Md5Context × List UInt8)
  | 0, buf, ctx => some (ctx, buf)
  | rounds + 1, buf, ctx =>
    if 64 ≤ buf.length then do
      let ctx ← ctx.copy 0 (buf.take 64)
      blocks endian rounds (buf.drop 64) (ctx.transform endian)
    else some (ctx, buf)

/-- Update the count of bits. -/
def count (len : UInt32) (ctx : Md5Context) : Md5Context :=
  let t := ctx.bits0
  let bits0 := t + len <<< 3
  let carry := if bits0 < t then ctx.bits1 + 1 else ctx.bits1
  { ctx with bits0, bits1 := carry + len >>> 29 }

/-- The bytes that are held in the block. -/
def held (ctx : Md5Context) : ℕ := (ctx.bits0 >>> 3 &&& 0x3f).toNat

/-- `aug_appendmd5`. -/
def append (endian : Endian) (buf : List UInt8) (ctx : Md5Context) : Option Md5Context := do
  let t := ctx.held
  let ctx := ctx.count (.ofNat buf.length)
  if t ≠ 0 then
    if buf.length < 64 - t then ctx.copy t buf
    else
      let ctx ← ctx.copy t (buf.take (64 - t))
      let (ctx, buf) ← (ctx.transform endian).blocks endian buf.length (buf.drop (64 - t))
      ctx.copy 0 buf
  else
    let (ctx, buf) ← ctx.blocks endian buf.length buf
    ctx.copy 0 buf

/-- The first part of `aug_finishmd5`: the block is filled up to the count of bits. -/
def fill (endian : Endian) (ctx : Md5Context) : Option Md5Context := do
  let count := ctx.held
  let ctx ← ctx.copy count [0x80]
  let left := 64 - 1 - count
  if left < 8 then do
    let ctx ← ctx.copy (count + 1) (List.replicate left 0)
    (ctx.transform endian).copy 0 (List.replicate 56 0)
  else ctx.copy (count + 1) (List.replicate (left - 8) 0)

/-- `aug_finishmd5`: the digest. -/
def finish (endian : Endian) (ctx : Md5Context) : Option (List UInt8) := do
  let ctx ← ctx.fill endian
  let ctx := { ctx with inbuf := byteReverse endian 14 ctx.inbuf }
  let ctx ← ctx.copy (4 * 14) (endian.bytes 4 ctx.bits0.toNat)
  let ctx ← ctx.copy (4 * 15) (endian.bytes 4 ctx.bits1.toNat)
  let buf := md5transform ctx.buf (wordsOf endian ctx.inbuf)
  some (byteReverse endian 4 (buf.list.flatMap fun word => endian.bytes 4 word.toNat))

end Md5Context

/-- A digest of some parts that are appended in turn, where the block begins with arbitrary bytes. -/
def md5 (endian : Endian) (inbuf : List UInt8) (parts : List (List UInt8)) : Option (List UInt8) := do
  let ctx ← parts.foldlM (fun ctx part => ctx.append endian part) (initmd5 inbuf)
  ctx.finish endian

end Aug.Util
