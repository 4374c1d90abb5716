import Aug.Util.Md5Spec

/-!
# Digests of messages in parts

A context stands for the message that has been appended: its words are the fold of the full blocks, and its block begins
with what is left over. So the digest is the hash of the whole message, however it is divided and whatever the host.
-/

namespace Aug.Util

open Aug.Lib Aug.Sys

/-! ## Blocks in memory -/

/-- A word of a block in memory. -/
def wordAt (endian : Endian) (buf : List UInt8) (k : ℕ) : UInt32 :=
  .ofNat (endian.value ((buf.drop (4 * k)).take 4))

/-- The bytes of a word are put together with the lowest one first. -/
theorem reversedWord_eq {buf : List UInt8} (hbuf : 4 ≤ buf.length) : reversedWord buf = wordAt .little buf 0 := by
  match buf, hbuf with
  | b0 :: b1 :: b2 :: b3 :: rest, _ =>
    have h0 := b0.toNat_lt
    have h1 := b1.toNat_lt
    have h2 := b2.toNat_lt
    have h3 := b3.toNat_lt
    apply UInt32.toNat_inj.mp
    have hvalue : (wordAt .little (b0 :: b1 :: b2 :: b3 :: rest) 0).toNat =
        ((b3.toNat * 256 + b2.toNat) * 256 + b1.toNat) * 256 + b0.toNat := by
      simp [wordAt, Endian.value, valueBE]
      omega
    rw [hvalue]
    have hlow : (reversedWord (b0 :: b1 :: b2 :: b3 :: rest)).toNat =
        ((b3.toNat <<< 8 % 2 ^ 32 ||| b2.toNat) <<< 16 % 2 ^ 32) ||| (b1.toNat <<< 8 % 2 ^ 32 ||| b0.toNat) := by
      simp only [reversedWord, List.getD_cons_zero, List.getD_cons_succ, UInt32.toNat_or, UInt32.toNat_shiftLeft,
        UInt8.toNat_toUInt32]
      rfl
    have hpair (high low : UInt8) : high.toNat <<< 8 % 2 ^ 32 ||| low.toNat = low.toNat + high.toNat * 2 ^ 8 := by
      have hhigh := high.toNat_lt
      have hsmall : high.toNat * 2 ^ 8 < 2 ^ 32 := by omega
      rw [Nat.shiftLeft_eq, Nat.mod_eq_of_lt hsmall, Nat.or_comm, or_shifted _ 8 low.toNat_lt]
    have hsmall : (b2.toNat + b3.toNat * 2 ^ 8) * 2 ^ 16 < 2 ^ 32 := by omega
    have hlower : b0.toNat + b1.toNat * 2 ^ 8 < 2 ^ 16 := by omega
    rw [hlow, hpair, hpair, Nat.shiftLeft_eq, Nat.mod_eq_of_lt hsmall, Nat.or_comm, or_shifted _ 16 hlower]
    ring

theorem byteReverse_little (longs : ℕ) (buf : List UInt8) : byteReverse .little longs buf = buf := by
  cases longs <;> rfl

/-- A reversed block is read as the words that put the lowest byte first, and the rest stays as it is. -/
theorem byteReverse_spec (endian : Endian) (longs : ℕ) {buf : List UInt8} (hbuf : 4 * longs ≤ buf.length) :
    (byteReverse endian longs buf).length = buf.length ∧
      (∀ k < longs, wordAt endian (byteReverse endian longs buf) k = wordAt .little buf k) ∧
      (byteReverse endian longs buf).drop (4 * longs) = buf.drop (4 * longs) := by
  cases endian with
  | little =>
    rw [byteReverse_little]
    exact ⟨rfl, fun _ _ => rfl, rfl⟩
  | big =>
    induction longs generalizing buf with
    | zero => exact ⟨rfl, nofun, rfl⟩
    | succ longs ih =>
      have hdrop : 4 * longs ≤ (buf.drop 4).length := by
        rw [List.length_drop]
        omega
      obtain ⟨hlength, hwords, hrest⟩ := ih hdrop
      have hfirst : (Endian.bytes .big 4 (reversedWord buf).toNat).length = 4 := Endian.bytes_length ..
      rw [byteReverse]
      refine ⟨?_, ?_, ?_⟩
      · rw [List.length_append, hfirst, hlength, List.length_drop]
        omega
      · intro k hk
        cases k with
        | zero =>
          rw [wordAt, Nat.mul_zero, List.drop_zero, List.take_left' hfirst, Endian.value_bytes _ (UInt32.toNat_lt _),
            UInt32.ofNat_toNat, reversedWord_eq (by omega)]
        | succ k =>
          have hword := hwords k (Nat.lt_of_succ_lt_succ hk)
          rw [wordAt, Nat.mul_succ, Nat.add_comm, ← List.drop_drop, List.drop_left' hfirst]
          rw [wordAt, wordAt, List.drop_drop] at hword
          rw [hword, wordAt, Nat.mul_succ, Nat.add_comm 4]
      · rw [Nat.mul_succ, Nat.add_comm, ← List.drop_drop, List.drop_left' hfirst, hrest, List.drop_drop]

/-- The words of a block that has been reversed. -/
theorem wordsOf_byteReverse (endian : Endian) {buf : List UInt8} (hbuf : buf.length = 64) :
    wordsOf endian (byteReverse endian 16 buf) = blockWords buf := by
  obtain ⟨-, hwords, -⟩ := byteReverse_spec endian 16 hbuf.ge
  exact List.map_congr_left fun k hk => hwords k (List.mem_range.mp hk)

namespace Md5Context

variable {endian : Endian} {ctx : Md5Context} {buf message : List UInt8}

/-- The fold of a block of bytes. -/
def fold (h : Md5Words) (block : List UInt8) : Md5Words := compress h (blockWords block)

theorem transform_buf (endian : Endian) (hsize : ctx.inbuf.length = 64) :
    (ctx.transform endian).buf = fold ctx.buf ctx.inbuf := by
  rw [transform, fold, ← wordsOf_byteReverse endian hsize, ← md5transform_eq]

theorem transform_size (endian : Endian) (hsize : ctx.inbuf.length = 64) : (ctx.transform endian).inbuf.length = 64 :=
  (byteReverse_spec endian 16 hsize.ge).1.trans hsize

theorem transform_bits0 (endian : Endian) (ctx : Md5Context) : (ctx.transform endian).bits0 = ctx.bits0 := by
  rw [transform]

theorem transform_bits1 (endian : Endian) (ctx : Md5Context) : (ctx.transform endian).bits1 = ctx.bits1 := by
  rw [transform]

/-- Bytes that fit into the block are copied. -/
theorem copy_eq {i : ℕ} {bytes : List UInt8} (hsize : ctx.inbuf.length = 64) (hfit : i + bytes.length ≤ 64) :
    ctx.copy i bytes = some { ctx with inbuf := ctx.inbuf.take i ++ (bytes ++ ctx.inbuf.drop (i + bytes.length)) } := by
  rw [copy, store, if_pos (hfit.trans_eq hsize.symm)]
  rfl

theorem copy_size {i : ℕ} {bytes : List UInt8} (hsize : ctx.inbuf.length = 64) (hfit : i + bytes.length ≤ 64) :
    (ctx.inbuf.take i ++ (bytes ++ ctx.inbuf.drop (i + bytes.length))).length = 64 := by
  rw [List.length_append, List.length_append, List.length_take, List.length_drop, hsize]
  omega

/-- A whole block is copied. -/
theorem copy_block (hsize : ctx.inbuf.length = 64) (hbuf : buf.length = 64) :
    ctx.copy 0 buf = some { ctx with inbuf := buf } := by
  rw [copy_eq hsize (by omega), List.take_zero, Nat.zero_add, hbuf, ← hsize, List.drop_length, List.nil_append,
    List.append_nil]

/-- The loop folds the full blocks, and leaves the rest. -/
theorem blocks_spec (endian : Endian) (rounds : ℕ) (hrounds : buf.length ≤ rounds) (hsize : ctx.inbuf.length = 64) :
    ∃ next rest, ctx.blocks endian rounds buf = some (next, rest) ∧ (next.buf, rest) = absorb 64 fold ctx.buf buf ∧
      next.inbuf.length = 64 ∧ next.bits0 = ctx.bits0 ∧ next.bits1 = ctx.bits1 := by
  induction rounds generalizing buf ctx with
  | zero =>
    rw [absorb_of_lt (by omega)]
    exact ⟨ctx, buf, rfl, rfl, hsize, rfl, rfl⟩
  | succ rounds ih =>
    rw [blocks]
    split_ifs with hfull
    · have htake : (buf.take 64).length = 64 := List.length_take_of_le hfull
      have hdrop : (buf.drop 64).length ≤ rounds := by
        rw [List.length_drop]
        omega
      have hblock : absorb 64 fold ctx.buf buf = absorb 64 fold (fold ctx.buf (buf.take 64)) (buf.drop 64) := by
        have hjoin : absorb 64 fold ctx.buf (buf.take 64 ++ buf.drop 64) =
            absorb 64 fold (fold ctx.buf (buf.take 64)) (buf.drop 64) := absorb_block (Nat.succ_pos 63) htake
        rw [List.take_append_drop] at hjoin
        exact hjoin
      have hnext : ({ ctx with inbuf := buf.take 64 } : Md5Context).inbuf.length = 64 := htake
      obtain ⟨next, rest, hblocks, hfold, hlength, hbits0, hbits1⟩ := ih hdrop (transform_size endian hnext)
      rw [transform_buf endian hnext, ← hblock] at hfold
      rw [transform_bits0] at hbits0
      rw [transform_bits1] at hbits1
      rw [copy_block hsize htake, Option.bind_eq_bind, Option.bind_some]
      exact ⟨next, rest, hblocks, hfold, hlength, hbits0, hbits1⟩
    · rw [absorb_of_lt (Nat.lt_of_not_le hfull)]
      exact ⟨ctx, buf, rfl, rfl, hsize, rfl, rfl⟩

/-- The context stands for a message. -/
structure Stands (ctx : Md5Context) (message : List UInt8) : Prop where
  absorbed : (ctx.buf, ctx.inbuf.take (message.length % 64)) = absorb 64 fold (initmd5 []).buf message
  size : ctx.inbuf.length = 64
  bits : ctx.bits1.toNat * 2 ^ 32 + ctx.bits0.toNat = 8 * message.length % 2 ^ 64

theorem held_eq (h : ctx.Stands message) : ctx.held = message.length % 64 := by
  have hbits := h.bits
  have hlow := ctx.bits0.toNat_lt
  rw [held, UInt32.toNat_and, UInt32.toNat_shiftRight]
  change (ctx.bits0.toNat >>> 3) &&& (2 ^ 6 - 1) = message.length % 64
  rw [Nat.and_two_pow_sub_one_eq_mod, Nat.shiftRight_eq_div_pow]
  omega

/-- A count in two words, with a carry from the lower one. -/
theorem count_carry {low high length : ℕ} (more : ℕ) (hbits : high * 2 ^ 32 + low = 8 * length % 2 ^ 64) (hlow : low < 2 ^ 32) :
    ((if (low + 8 * more % 2 ^ 32) % 2 ^ 32 < low then (high + 1) % 2 ^ 32 else high) + more / 2 ^ 29) % 2 ^ 32 * 2 ^ 32 +
      (low + 8 * more % 2 ^ 32) % 2 ^ 32 = 8 * (length + more) % 2 ^ 64 := by
  have hdiv : 8 * more / 2 ^ 32 = more / 2 ^ 29 := Nat.mul_div_mul_left _ (2 ^ 29) (Nat.succ_pos 7)
  have hmore : 8 * more = 2 ^ 32 * (more / 2 ^ 29) + 8 * more % 2 ^ 32 := by
    rw [← hdiv, Nat.div_add_mod]
  have hlower : 8 * more % 2 ^ 32 < 2 ^ 32 := Nat.mod_lt _ (Nat.two_pow_pos 32)
  have hsum : 8 * (length + more) % 2 ^ 64 =
      (high * 2 ^ 32 + low + (2 ^ 32 * (more / 2 ^ 29) + 8 * more % 2 ^ 32)) % 2 ^ 64 := by
    rw [hbits, ← hmore, Nat.mod_add_mod, Nat.mul_add]
  rw [hsum]
  clear hsum hmore hbits hdiv
  generalize more / 2 ^ 29 = upper
  generalize 8 * more % 2 ^ 32 = lower at *
  split_ifs with hless
  · have hcarry : (low + lower) % 2 ^ 32 = low + lower - 2 ^ 32 := by
      omega
    omega
  · omega

/-- The bits are counted modulo `2 ^ 64`. -/
theorem count_bits (h : ctx.Stands message) (hbuf : buf.length < 2 ^ 32) :
    (ctx.count (.ofNat buf.length)).bits1.toNat * 2 ^ 32 + (ctx.count (.ofNat buf.length)).bits0.toNat =
      8 * (message ++ buf).length % 2 ^ 64 := by
  have hlen : (UInt32.ofNat buf.length).toNat = buf.length := UInt32.toNat_ofNat_of_lt' hbuf
  have hshift : (UInt32.ofNat buf.length <<< 3).toNat = 8 * buf.length % 2 ^ 32 := by
    rw [UInt32.toNat_shiftLeft, hlen, Nat.shiftLeft_eq]
    exact congrArg (· % 2 ^ 32) (Nat.mul_comm _ 8)
  have hcarry : (UInt32.ofNat buf.length >>> 29).toNat = buf.length / 2 ^ 29 := by
    rw [UInt32.toNat_shiftRight, hlen, Nat.shiftRight_eq_div_pow]
    rfl
  have hone (high : UInt32) : (high + 1).toNat = (high.toNat + 1) % 2 ^ 32 := UInt32.toNat_add ..
  have hsum := count_carry buf.length h.bits ctx.bits0.toNat_lt
  rw [List.length_append, ← hsum, count]
  dsimp only
  rw [UInt32.toNat_add, UInt32.toNat_add, apply_ite UInt32.toNat]
  simp only [hone, UInt32.lt_iff_toNat_lt, UInt32.toNat_add, hshift, hcarry]

/-- What is left over is put at the beginning of the block. -/
theorem copy_stands {rest : List UInt8} (hfold : (ctx.buf, rest) = absorb 64 fold (initmd5 []).buf message)
    (hsize : ctx.inbuf.length = 64) (hbits : ctx.bits1.toNat * 2 ^ 32 + ctx.bits0.toNat = 8 * message.length % 2 ^ 64) :
    ∃ next, ctx.copy 0 rest = some next ∧ next.Stands message := by
  have hrest : rest.length = message.length % 64 := by
    rw [← absorb_held message, ← hfold]
  have hfit : 0 + rest.length ≤ 64 := by
    omega
  refine ⟨_, copy_eq hsize hfit, ?_, copy_size hsize hfit, hbits⟩
  rw [← hfold, ← hrest, List.take_zero, List.nil_append, List.take_left]

theorem init_stands {inbuf : List UInt8} (hsize : inbuf.length = 64) : (initmd5 inbuf).Stands [] where
  absorbed := by
    rw [absorb_of_lt (Nat.succ_pos 63)]
    rfl
  size := hsize
  bits := by simp [initmd5]

/-- What is held is followed by what is appended. -/
theorem Stands.append_fold (h : ctx.Stands message) (buf : List UInt8) :
    absorb 64 fold (initmd5 []).buf (message ++ buf) =
      absorb 64 fold ctx.buf (ctx.inbuf.take (message.length % 64) ++ buf) := by
  rw [absorb_append (Nat.succ_pos 63), ← h.absorbed]

/-- A context that stands for a message stands for the message with what is appended. -/
theorem append_stands (endian : Endian) (h : ctx.Stands message) (hbuf : buf.length < 2 ^ 32) :
    ∃ next, ctx.append endian buf = some next ∧ next.Stands (message ++ buf) := by
  have hbits := count_bits h hbuf
  have hsize : (ctx.count (.ofNat buf.length)).inbuf.length = 64 := h.size
  have hfold := h.append_fold buf
  have hless : message.length % 64 < 64 := Nat.mod_lt _ (Nat.succ_pos 63)
  have hpart : (ctx.inbuf.take (message.length % 64)).length = message.length % 64 :=
    List.length_take_of_le (hless.le.trans_eq h.size.symm)
  have hsame : (ctx.count (.ofNat buf.length)).buf = ctx.buf ∧ (ctx.count (.ofNat buf.length)).inbuf = ctx.inbuf := by
    rw [count]
    exact ⟨rfl, rfl⟩
  rw [append, held_eq h]
  generalize ctx.count (.ofNat buf.length) = counted at hbits hsize hsame ⊢
  obtain ⟨hwords, hblock⟩ := hsame
  dsimp only
  generalize hheld : message.length % 64 = t at hless hpart hfold ⊢
  split_ifs with hany hroom
  · have hfit : t + buf.length ≤ 64 := by
      omega
    have hlength : (message ++ buf).length % 64 = t + buf.length := by
      rw [List.length_append]
      omega
    refine ⟨_, copy_eq hsize hfit, ?_, copy_size hsize hfit, hbits⟩
    have hshort : (ctx.inbuf.take t ++ buf).length < 64 := by
      rw [List.length_append, hpart]
      omega
    have htake : (ctx.inbuf.take t ++ buf).length = t + buf.length := by
      rw [List.length_append, hpart]
    rw [hfold, absorb_of_lt hshort, hlength, hwords, hblock, ← List.append_assoc, List.take_left' htake]
  · have hfill : (buf.take (64 - t)).length = 64 - t := List.length_take_of_le (Nat.le_of_not_lt hroom)
    have hfit : t + (buf.take (64 - t)).length ≤ 64 := by
      omega
    have hfull : (ctx.inbuf.take t ++ buf.take (64 - t)).length = 64 := by
      rw [List.length_append, hpart, hfill]
      omega
    have hcopied : counted.inbuf.take t ++ (buf.take (64 - t) ++ counted.inbuf.drop (t + (buf.take (64 - t)).length)) =
        ctx.inbuf.take t ++ buf.take (64 - t) := by
      have hall : counted.inbuf.length ≤ t + (buf.take (64 - t)).length := by
        omega
      rw [List.drop_of_length_le hall, List.append_nil, hblock]
    have hlonger : (buf.drop (64 - t)).length ≤ buf.length := by
      rw [List.length_drop]
      exact Nat.sub_le ..
    rw [copy_eq hsize hfit, hcopied, Option.bind_eq_bind, Option.bind_some]
    have hsized : (Md5Context.transform endian
        { counted with inbuf := ctx.inbuf.take t ++ buf.take (64 - t) }).inbuf.length = 64 :=
      transform_size endian hfull
    obtain ⟨next, rest, hblocks, hrest, hlength, hbits0, hbits1⟩ := blocks_spec endian buf.length hlonger hsized
    rw [hblocks, Option.bind_eq_bind, Option.bind_some]
    rw [transform_buf _ hfull, ← absorb_block (Nat.succ_pos 63) hfull, List.append_assoc, List.take_append_drop, hwords,
      ← hfold] at hrest
    rw [transform_bits0] at hbits0
    rw [transform_bits1] at hbits1
    rw [← hbits0, ← hbits1] at hbits
    exact copy_stands hrest hlength hbits
  · have hnone : t = 0 := Decidable.not_not.mp hany
    obtain ⟨next, rest, hblocks, hrest, hlength, hbits0, hbits1⟩ := blocks_spec endian buf.length le_rfl hsize
    rw [hnone, List.take_zero, List.nil_append] at hfold
    rw [hwords, ← hfold] at hrest
    rw [hblocks, Option.bind_eq_bind, Option.bind_some]
    rw [← hbits0, ← hbits1] at hbits
    exact copy_stands hrest hlength hbits

/-- A context stands for all that has been appended to it. -/
theorem appends_stand (endian : Endian) {parts : List (List UInt8)} (hparts : ∀ part ∈ parts, part.length < 2 ^ 32)
    (h : ctx.Stands message) :
    ∃ next, parts.foldlM (fun ctx part => ctx.append endian part) ctx = some next ∧
      next.Stands (message ++ parts.flatten) := by
  induction parts generalizing ctx message with
  | nil =>
    rw [List.flatten_nil, List.append_nil]
    exact ⟨ctx, rfl, h⟩
  | cons part parts ih =>
    obtain ⟨next, happend, hnext⟩ := append_stands endian h (hparts part List.mem_cons_self)
    obtain ⟨last, hrun, hlast⟩ := ih (fun part hpart => hparts part (List.mem_cons_of_mem _ hpart)) hnext
    rw [List.foldlM_cons, happend, List.flatten_cons, ← List.append_assoc]
    exact ⟨last, hrun, hlast⟩

/-! ## The last block -/

/-- The block is filled up with padding, and folded where there is no room for the count. -/
theorem fill_spec (endian : Endian) (h : ctx.Stands message) :
    ∃ next, ctx.fill endian = some next ∧ next.inbuf.length = 64 ∧ next.bits0 = ctx.bits0 ∧ next.bits1 = ctx.bits1 ∧
      ∀ tail, absorb 64 fold (initmd5 []).buf
          (message ++ (0x80 :: List.replicate ((119 - message.length % 64) % 64) 0 ++ tail)) =
        absorb 64 fold next.buf (next.inbuf.take 56 ++ tail) := by
  have hless : message.length % 64 < 64 := Nat.mod_lt _ (Nat.succ_pos 63)
  have hsize := h.size
  have hfold (tail : List UInt8) := h.append_fold
    (0x80 :: List.replicate ((119 - message.length % 64) % 64) 0 ++ tail)
  rw [fill, held_eq h]
  generalize message.length % 64 = t at hless hfold ⊢
  have hpart : (ctx.inbuf.take t ++ [0x80]).length = t + 1 := by
    rw [List.length_append, List.length_take_of_le (by omega), List.length_singleton]
  have hbit : t + [(0x80 : UInt8)].length ≤ 64 := hless
  have hmarked := copy_size hsize hbit
  rw [copy_eq hsize hbit, Option.bind_eq_bind, Option.bind_some]
  rw [← List.append_assoc] at hmarked ⊢
  dsimp only
  generalize ctx.inbuf.drop (t + [(0x80 : UInt8)].length) = others at hmarked ⊢
  split_ifs with hroom
  · have hfit : t + 1 + (List.replicate (64 - 1 - t) (0 : UInt8)).length ≤ 64 := by
      rw [List.length_replicate]
      omega
    have hblock : (ctx.inbuf.take t ++ [0x80] ++ List.replicate (64 - 1 - t) 0).length = 64 := by
      rw [List.length_append, hpart, List.length_replicate]
      omega
    have hend : others.drop (List.replicate (64 - 1 - t) (0 : UInt8)).length = [] := by
      rw [List.drop_eq_nil_iff]
      rw [List.length_append, hpart] at hmarked
      rw [List.length_replicate]
      omega
    rw [copy_eq hmarked hfit, Option.bind_some]
    dsimp only
    rw [List.take_left' hpart, ← List.drop_drop, List.drop_left' hpart, hend, List.append_nil]
    have hzeros : 0 + (List.replicate 56 (0 : UInt8)).length ≤ 64 := by
      rw [List.length_replicate]
      omega
    let filled : Md5Context := { ctx with inbuf := ctx.inbuf.take t ++ [0x80] ++ List.replicate (64 - 1 - t) 0 }
    have hfilled : filled.inbuf.length = 64 := hblock
    have hnext := transform_size endian hfilled
    have hbits0 : (filled.transform endian).bits0 = ctx.bits0 := by
      rw [transform_bits0]
    have hbits1 : (filled.transform endian).bits1 = ctx.bits1 := by
      rw [transform_bits1]
    refine ⟨_, copy_eq hnext hzeros, copy_size hnext hzeros, hbits0, hbits1, ?_⟩
    intro tail
    dsimp only
    have hcount : (119 - t) % 64 = 64 - 1 - t + 56 := by
      omega
    have htake : (List.replicate 56 (0 : UInt8)).length = 56 := List.length_replicate
    rw [hfold, hcount, List.replicate_add, List.take_zero, List.nil_append, List.take_left' htake, transform_buf _ hfilled,
      ← absorb_block (Nat.succ_pos 63) hfilled]
    simp only [filled, List.append_assoc, List.cons_append, List.nil_append]
  · have hfit : t + 1 + (List.replicate (64 - 1 - t - 8) (0 : UInt8)).length ≤ 64 := by
      rw [List.length_replicate]
      omega
    refine ⟨_, copy_eq hmarked hfit, copy_size hmarked hfit, rfl, rfl, ?_⟩
    intro tail
    dsimp only
    have hcount : (119 - t) % 64 = 64 - 1 - t - 8 := by
      omega
    have htake : (ctx.inbuf.take t ++ [0x80] ++ List.replicate (64 - 1 - t - 8) 0).length = 56 := by
      rw [List.length_append, hpart, List.length_replicate]
      omega
    rw [hfold, hcount, List.take_left' hpart, ← List.append_assoc (ctx.inbuf.take t ++ [0x80]), List.take_left' htake]
    simp only [List.append_assoc, List.cons_append, List.nil_append]

/-- Words that lie within the first bytes. -/
theorem wordAt_take (endian : Endian) {n k : ℕ} (buf tail : List UInt8) (hbuf : n ≤ buf.length) (hk : 4 * k + 4 ≤ n) :
    wordAt endian (buf.take n ++ tail) k = wordAt endian buf k := by
  have hlength : (buf.take n).length = n := List.length_take_of_le hbuf
  have hinside : 4 ≤ ((buf.take n).drop (4 * k)).length := by
    rw [List.length_drop, hlength]
    omega
  rw [wordAt, wordAt, List.drop_append_of_le_length (by omega), List.take_append_of_le_length hinside, List.drop_take,
    List.take_take, Nat.min_eq_left (by omega)]

/-- A word that begins behind some bytes. -/
theorem wordAt_skip (endian : Endian) {k : ℕ} {front : List UInt8} (hfront : front.length = 4 * k) (w : UInt32)
    (back : List UInt8) : wordAt endian (front ++ (endian.bytes 4 w.toNat ++ back)) k = w := by
  have hword : (endian.bytes 4 w.toNat).length = 4 := Endian.bytes_length ..
  rw [wordAt, List.drop_left' hfront, List.take_left' hword, Endian.value_bytes _ w.toNat_lt, UInt32.ofNat_toNat]

/-- A count in eight bytes is two words. -/
theorem bytes_words (low high : UInt32) : Endian.bytes .little 8 (high.toNat * 2 ^ 32 + low.toNat) =
    Endian.bytes .little 4 low.toNat ++ Endian.bytes .little 4 high.toNat := by
  have hlow : low.toNat < 256 ^ 4 := low.toNat_lt
  have hupper : (high.toNat * 2 ^ 32 + low.toNat) / 256 ^ 4 = high.toNat := by
    omega
  have hlower : encodeBE 4 (high.toNat * 2 ^ 32 + low.toNat) = encodeBE 4 low.toNat := by
    have hmod : (high.toNat * 2 ^ 32 + low.toNat) % 256 ^ 4 = low.toNat := by
      omega
    rw [← encodeBE_mod, hmod]
  have hall := encodeBE_add 4 4 (high.toNat * 2 ^ 32 + low.toNat)
  rw [hupper, hlower] at hall
  exact (congrArg List.reverse hall).trans (List.reverse_append ..)

/-- The words of the last block. -/
theorem words_last (endian : Endian) {inbuf : List UInt8} (low high : UInt32) (hsize : inbuf.length = 64) :
    wordsOf endian ((byteReverse endian 14 inbuf).take 56 ++ (endian.bytes 4 low.toNat ++ endian.bytes 4 high.toNat)) =
      blockWords (inbuf.take 56 ++ Endian.bytes .little 8 (high.toNat * 2 ^ 32 + low.toNat)) := by
  have hroom : 4 * 14 ≤ inbuf.length := by omega
  obtain ⟨hlength, hwords, -⟩ := byteReverse_spec endian 14 hroom
  rw [bytes_words, blockWords, wordsOf, wordsOf]
  apply List.map_congr_left
  intro k hk
  have hk := List.mem_range.mp hk
  change wordAt endian _ k = wordAt .little _ k
  by_cases hfront : k < 14
  · rw [wordAt_take endian _ _ (by omega) (by omega), wordAt_take .little _ _ (by omega) (by omega), hwords k hfront]
  · have hreversed : ((byteReverse endian 14 inbuf).take 56).length = 56 := List.length_take_of_le (by omega)
    have hblock : (inbuf.take 56).length = 56 := List.length_take_of_le (by omega)
    by_cases hlow : k = 14
    · rw [wordAt_skip endian (by omega), wordAt_skip .little (by omega)]
    · rw [← List.append_assoc, ← List.append_assoc, ← List.append_nil (endian.bytes 4 high.toNat),
        ← List.append_nil (Endian.bytes .little 4 high.toNat)]
      have hwidth (endian : Endian) : (endian.bytes 4 low.toNat).length = 4 := Endian.bytes_length ..
      rw [wordAt_skip endian, wordAt_skip .little]
      · rw [List.length_append, hblock, hwidth]
        omega
      · rw [List.length_append, hreversed, hwidth]
        omega

/-- Words are copied out with the lowest byte first. -/
theorem byteReverse_words (endian : Endian) (words : List UInt32) :
    byteReverse endian words.length (words.flatMap fun word => endian.bytes 4 word.toNat) =
      words.flatMap fun word => Endian.bytes .little 4 word.toNat := by
  cases endian with
  | little => exact byteReverse_little ..
  | big =>
    induction words with
    | nil => rfl
    | cons word words ih =>
      have hwidth : (Endian.bytes .big 4 word.toNat).length = 4 := Endian.bytes_length ..
      have hall : 4 ≤ (Endian.bytes .big 4 word.toNat ++ words.flatMap fun word => Endian.bytes .big 4 word.toNat).length := by
        rw [List.length_append, hwidth]
        exact Nat.le_add_right ..
      have hbytes : Endian.bytes .big 4 (wordAt .little (Endian.bytes .big 4 word.toNat ++
          words.flatMap fun word => Endian.bytes .big 4 word.toNat) 0).toNat = Endian.bytes .little 4 word.toNat := by
        have hvalue := valueBE_lt (encodeBE 4 word.toNat).reverse
        rw [List.length_reverse, encodeBE_length] at hvalue
        have hlow : (UInt32.ofNat (valueBE (encodeBE 4 word.toNat).reverse)).toNat =
            valueBE (encodeBE 4 word.toNat).reverse := UInt32.toNat_ofNat_of_lt' hvalue
        rw [wordAt, Nat.mul_zero, List.drop_zero, List.take_left' hwidth]
        change encodeBE 4 (UInt32.ofNat (valueBE (encodeBE 4 word.toNat).reverse)).toNat = (encodeBE 4 word.toNat).reverse
        rw [hlow]
        have hagain := encodeBE_valueBE (encodeBE 4 word.toNat).reverse
        rw [List.length_reverse, encodeBE_length] at hagain
        exact hagain
      rw [List.flatMap_cons, List.length_cons, byteReverse, reversedWord_eq hall, hbytes, List.drop_left' hwidth, ih,
        List.flatMap_cons]

/-- The count is put behind what is in the block. -/
theorem copy_count (endian : Endian) (hsize : ctx.inbuf.length = 64) :
    (ctx.copy (4 * 14) (endian.bytes 4 ctx.bits0.toNat)).bind
        (fun ctx => ctx.copy (4 * 15) (endian.bytes 4 ctx.bits1.toNat)) =
      some { ctx with
        inbuf := ctx.inbuf.take 56 ++ (endian.bytes 4 ctx.bits0.toNat ++ endian.bytes 4 ctx.bits1.toNat) } := by
  have hlow : (endian.bytes 4 ctx.bits0.toNat).length = 4 := Endian.bytes_length ..
  have hhigh : (endian.bytes 4 ctx.bits1.toNat).length = 4 := Endian.bytes_length ..
  have hfitlow : 4 * 14 + (endian.bytes 4 ctx.bits0.toNat).length ≤ 64 := by
    omega
  have hfithigh : 4 * 15 + (endian.bytes 4 ctx.bits1.toNat).length ≤ 64 := by
    omega
  have hend : 64 ≤ 4 * 15 + (endian.bytes 4 ctx.bits1.toNat).length := by
    omega
  have hnext := copy_size hsize hfitlow
  have hfront : (ctx.inbuf.take (4 * 14) ++ endian.bytes 4 ctx.bits0.toNat).length = 4 * 15 := by
    rw [List.length_append, List.length_take_of_le (by omega), hlow]
  rw [copy_eq hsize hfitlow, Option.bind_some, copy_eq hnext hfithigh]
  dsimp only
  rw [List.drop_of_length_le (hnext.le.trans hend), ← List.append_assoc (ctx.inbuf.take (4 * 14)),
    List.take_left' hfront, List.append_nil, List.append_assoc]

/-- The digest of the message that a context stands for. -/
theorem finish_spec (endian : Endian) (h : ctx.Stands message) : ctx.finish endian = some (digest message) := by
  obtain ⟨next, hfill, hsize, hbits0, hbits1, hfold⟩ := fill_spec endian h
  have hreversed : (byteReverse endian 14 next.inbuf).length = 64 :=
    (byteReverse_spec endian 14 (by omega)).1.trans hsize
  have hturned : ({ next with inbuf := byteReverse endian 14 next.inbuf } : Md5Context).inbuf.length = 64 := hreversed
  have hcount := copy_count endian hturned
  have hbits : 8 * message.length % 2 ^ 64 = next.bits1.toNat * 2 ^ 32 + next.bits0.toNat := by
    rw [hbits0, hbits1, h.bits]
  have hlast : (next.inbuf.take 56 ++ Endian.bytes .little 8 (next.bits1.toNat * 2 ^ 32 + next.bits0.toNat)).length =
      64 := by
    rw [List.length_append, List.length_take_of_le (by omega), Endian.bytes_length]
  have hhash : (absorb 64 fold (initmd5 []).buf (message ++ padding message.length)).1 =
      md5transform next.buf (wordsOf endian ((byteReverse endian 14 next.inbuf).take 56 ++
        (endian.bytes 4 next.bits0.toNat ++ endian.bytes 4 next.bits1.toNat))) := by
    rw [padding, hfold, hbits, ← List.append_nil (_ ++ _), absorb_block (Nat.succ_pos 63) hlast,
      absorb_of_lt (Nat.succ_pos 63), words_last endian _ _ hsize, md5transform_eq]
    rfl
  have hdigest (words : Md5Words) : byteReverse endian 4 (words.list.flatMap fun word => endian.bytes 4 word.toNat) =
      words.list.flatMap fun word => Endian.bytes .little 4 word.toNat := byteReverse_words endian words.list
  rw [finish, hfill, Option.bind_eq_bind, Option.bind_some]
  simp only [hdigest]
  rw [← Option.bind_assoc, hcount, Option.bind_some, ← hhash]
  rfl

end Md5Context

/-- However a message is divided, and whatever the host, the digest is the hash of the message. -/
theorem md5_digests (endian : Endian) {inbuf : List UInt8} {parts : List (List UInt8)} (hinbuf : inbuf.length = 64)
    (hparts : ∀ part ∈ parts, part.length < 2 ^ 32) : md5 endian inbuf parts = some (digest parts.flatten) := by
  obtain ⟨ctx, hrun, hstands⟩ := Md5Context.appends_stand endian hparts (Md5Context.init_stands hinbuf)
  rw [md5, hrun, Option.bind_eq_bind, Option.bind_some]
  exact Md5Context.finish_spec endian hstands

/-- The digest of three letters in two parts, on a host that begins with the highest byte. -/
theorem md5_digests_letters : md5 .big (List.replicate 64 0) [[0x61], [0x62, 0x63]] =
    some [0x90, 0x01, 0x50, 0x98, 0x3c, 0xd2, 0x4f, 0xb0, 0xd6, 0x96, 0x3f, 0x7d, 0x28, 0xe1, 0x7f, 0x72] := by
  have hdigest : digest [0x61, 0x62, 0x63] =
      [0x90, 0x01, 0x50, 0x98, 0x3c, 0xd2, 0x4f, 0xb0, 0xd6, 0x96, 0x3f, 0x7d, 0x28, 0xe1, 0x7f, 0x72] := by
    decide +kernel
  have hparts : ∀ part ∈ [[0x61], [(0x62 : UInt8), 0x63]], part.length < 2 ^ 32 := by
    simp
  rw [md5_digests .big List.length_replicate hparts]
  exact congrArg some hdigest

end Aug.Util
