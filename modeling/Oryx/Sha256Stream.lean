/-
Oryx/Sha256Stream.lean

The streaming hash computes SHA-256.

The compression function of `sha256.c` is that of the standard
(`sha256Block_vars`), its tables are the constants of the standard, and a
context is at every moment what `BlockStream.Absorbed` says of the bytes
handed over so far (`Sha256Ctx.Holds`), however they were cut.  `sha256_final`
pads in one block or in two, by the number of bytes that wait.
-/
import Oryx.Sha256
import Oryx.Lib.Fips180

namespace Oryx

open BlockStream

/-! ### The compression function -/

theorem ror_eq (x : U32) {n : Nat} (h : n < 32) : ror x n = Fips180.rotr n x := by
  rw [Fips180.rotr, BitVec.rotateRight_def, Nat.mod_eq_of_lt h]
  rfl

theorem setWidth_append {m n w : Nat} (x : BitVec m) (y : BitVec n) :
    (x ++ y).setWidth w = x.setWidth w <<< n ||| y.setWidth w := by
  apply BitVec.eq_of_getLsbD_eq
  intro i hi
  simp only [BitVec.getLsbD_setWidth, BitVec.getLsbD_append, BitVec.getLsbD_or,
    BitVec.getLsbD_shiftLeft, hi, decide_true, Bool.true_and]
  by_cases hlow : i < n
  · simp only [hlow, decide_true, if_true, Bool.not_true, Bool.false_and, Bool.false_or]
  · have hsub : i - n < w := by omega
    simp only [hlow, decide_false, if_false, Bool.not_false, Bool.true_and, hsub, decide_true,
      BitVec.getLsbD_of_ge y i (Nat.le_of_not_lt hlow), Bool.or_false]

/-- The shifts of `sha256_block` put the bytes of a word side by side. -/
theorem shiftedBytes_eq (a b c d : Byte) :
    (a.setWidth 32 <<< 24 ||| b.setWidth 32 <<< 16 ||| c.setWidth 32 <<< 8 ||| d.setWidth 32 : U32)
      = a ++ b ++ c ++ d := by
  calc (a.setWidth 32 <<< 24 ||| b.setWidth 32 <<< 16 ||| c.setWidth 32 <<< 8 |||
        d.setWidth 32 : U32)
      = ((a.setWidth 32 <<< 8 ||| b.setWidth 32) <<< 8 ||| c.setWidth 32) <<< 8 |||
          d.setWidth 32 := by
        simp only [BitVec.shiftLeft_or_distrib, ← BitVec.shiftLeft_add]
    _ = (a ++ b ++ c ++ d).setWidth 32 := by
        simp only [setWidth_append]
    _ = a ++ b ++ c ++ d := BitVec.setWidth_eq _

theorem blockWord_eq (p : List Byte) : blockWord p = Fips180.blockWord p := by
  funext i
  rw [blockWord, Fips180.blockWord, shiftedBytes_eq, Nat.mul_comm]

/-- The table `K` holds the constants of the standard. -/
theorem sha256K_eq : sha256K = (List.range 64).map Fips180.roundConstant := by
  have hbounds : ∀ x ∈ Fips180.firstPrimes.zip sha256K, Fips180.RootBounds 3 x.1 x.2 := by
    rw [Fips180.firstPrimes_eq]
    decide +kernel
  exact (Fips180.map_rootFraction hbounds (by decide)).symm

/-- The state as the hash value of the standard. -/
def Sha256State.vars (s : Sha256State) : Fips180.Vars :=
  ⟨s.a, s.b, s.c, s.d, s.e, s.f, s.g, s.h⟩

/-- The words `sha256_init` sets are those of the standard. -/
theorem sha256Init_vars : sha256Init.state.vars = Fips180.initialHash := by
  have hbounds : ∀ x ∈ Fips180.firstPrimes.zip
      [0x6a09e667, 0xbb67ae85, 0x3c6ef372, 0xa54ff53a, 0x510e527f, 0x9b05688c, 0x1f83d9ab,
        0x5be0cd19], Fips180.RootBounds 2 x.1 x.2 := by
    rw [Fips180.firstPrimes_eq]
    decide +kernel
  have hroots := Fips180.map_rootFraction hbounds (by decide)
  simp only [List.length_cons, List.length_nil, List.range, List.range.loop, List.map_cons,
    List.map_nil, List.cons.injEq, and_true] at hroots
  obtain ⟨h0, h1, h2, h3, h4, h5, h6, h7⟩ := hroots
  rw [Fips180.initialHash]
  simp only [h0, h1, h2, h3, h4, h5, h6, h7]
  rfl

/-! ### The message schedule -/

/-- The words of the schedule, up to `W_n`. -/
theorem nextWord_eq (m : Nat → U32) (n : Nat) :
    nextWord ((List.range (16 + n)).map (Fips180.messageSchedule m)) =
      Fips180.messageSchedule m (16 + n) := by
  have hget : ∀ k, 0 < k → k ≤ 16 →
      ((List.range (16 + n)).map (Fips180.messageSchedule m)).getD (16 + n - k) 0 =
        Fips180.messageSchedule m (16 + n - k) := by
    intro k hpos hk
    have hlt : 16 + n - k < 16 + n := by omega
    rw [List.getD_eq_getElem?_getD, List.getElem?_map, List.getElem?_range hlt, Option.map_some,
      Option.getD_some]
  rw [nextWord, List.length_map, List.length_range, Fips180.messageSchedule,
    if_neg (by omega : ¬ 16 + n < 16), hget 16 (by omega) (by omega),
    hget 15 (by omega) (by omega), hget 7 (by omega) (by omega), hget 2 (by omega) (by omega)]
  simp only [ror_eq _ (by decide : 7 < 32), ror_eq _ (by decide : 18 < 32),
    ror_eq _ (by decide : 17 < 32), ror_eq _ (by decide : 19 < 32)]
  unfold Fips180.smallSigma0 Fips180.smallSigma1 Fips180.shr
  ac_rfl

theorem schedule_eq (p : List Byte) :
    schedule p = (List.range 64).map (Fips180.messageSchedule (Fips180.blockWord p)) := by
  have key : ∀ n, (List.range n).foldl (fun w _ => w ++ [nextWord w])
      ((List.range 16).map (blockWord p)) =
        (List.range (16 + n)).map (Fips180.messageSchedule (Fips180.blockWord p)) := by
    intro n
    induction n with
    | zero =>
      apply List.map_congr_left
      intro t ht
      rw [Fips180.messageSchedule, if_pos (List.mem_range.mp ht), blockWord_eq]
    | succ n ih =>
      rw [List.range_succ (n := n), List.foldl_append, ih, List.foldl_cons, List.foldl_nil,
        nextWord_eq, ← Nat.add_assoc, List.range_succ (n := 16 + n), List.map_append]
      rfl
  exact key 48

/-! ### The rounds -/

/-- A round of `sha256_block` is one of the standard. -/
theorem sha256Round_vars (w : Nat → U32) (s : Sha256State) (t : Nat) :
    (sha256Round s (Fips180.roundConstant t, w t)).vars = Fips180.round w s.vars t := by
  simp only [sha256Round, ror_eq _ (by decide : 6 < 32), ror_eq _ (by decide : 11 < 32),
    ror_eq _ (by decide : 25 < 32), ror_eq _ (by decide : 2 < 32), ror_eq _ (by decide : 13 < 32),
    ror_eq _ (by decide : 22 < 32)]
  rfl

theorem foldl_sha256Round (w : Nat → U32) (ts : List Nat) (s : Sha256State) :
    ((ts.map fun t => (Fips180.roundConstant t, w t)).foldl sha256Round s).vars =
      ts.foldl (Fips180.round w) s.vars := by
  induction ts generalizing s with
  | nil => rfl
  | cons t ts ih => rw [List.map_cons, List.foldl_cons, List.foldl_cons, ih, sha256Round_vars]

/-- **`sha256_block` is the compression function of the standard.** -/
theorem sha256Block_vars (s : Sha256State) (p : List Byte) :
    (sha256Block s p).vars = Fips180.compress s.vars p := by
  have hzip : sha256K.zip (schedule p) = (List.range 64).map fun t =>
      (Fips180.roundConstant t, Fips180.messageSchedule (Fips180.blockWord p) t) := by
    rw [sha256K_eq, schedule_eq, List.zip_map']
  have hrounds := foldl_sha256Round (Fips180.messageSchedule (Fips180.blockWord p))
    (List.range 64) s
  rw [sha256Block, Fips180.compress, ← hrounds, ← hzip]
  -- what the rounds computed plays no part any more
  generalize (sha256K.zip (schedule p)).foldl sha256Round s = r
  rfl

theorem foldl_sha256Block (blocks : List (List Byte)) (s : Sha256State) :
    (blocks.foldl sha256Block s).vars = blocks.foldl Fips180.compress s.vars := by
  induction blocks generalizing s with
  | nil => rfl
  | cons b blocks ih => rw [List.foldl_cons, List.foldl_cons, ih, sha256Block_vars]

/-! ### Streaming -/

/-- The context after the bytes of `msg`. -/
structure Sha256Ctx.Holds (c : Sha256Ctx) (msg : List Byte) : Prop where
  absorbed : Absorbed 64 sha256Block sha256Init.state msg c.state c.buf
  bitlen : c.bitlen = BitVec.ofNat 64 (8 * msg.length)

theorem sha256Init_holds : sha256Init.Holds [] := ⟨.nil, rfl⟩

/-- A pass of the loop takes at least one byte, and the block where it is full. -/
theorem sha256UpdateLoop_step (fuel : Nat) {c : Sha256Ctx} {data msg : List Byte}
    (hdata : data ≠ []) (h : Absorbed 64 sha256Block sha256Init.state msg c.state c.buf) :
    ∃ n c', 0 < n ∧
      sha256UpdateLoop (fuel + 1) c data = sha256UpdateLoop fuel c' (data.drop n) ∧
      c'.bitlen = c.bitlen ∧
      Absorbed 64 sha256Block sha256Init.state (msg ++ data.take n) c'.state c'.buf := by
  have hpos : 0 < min (64 - c.buf.length) data.length := by
    have hbuf := c.buf_lt
    have hlen := List.length_pos_iff.mpr hdata
    omega
  have hwait := h.wait (data.take (min (64 - c.buf.length) data.length))
  rw [sha256UpdateLoop, if_neg hdata]
  dsimp only
  split
  · rename_i hfull
    exact ⟨_, _, hpos, rfl, rfl, hwait.fill hfull⟩
  · exact ⟨_, _, hpos, rfl, rfl, hwait⟩

/-- The loop takes in all of its bytes and counts none. -/
theorem sha256UpdateLoop_absorbed {fuel : Nat} {c : Sha256Ctx} {data msg : List Byte}
    (hfuel : data.length ≤ fuel)
    (h : Absorbed 64 sha256Block sha256Init.state msg c.state c.buf) :
    Absorbed 64 sha256Block sha256Init.state (msg ++ data) (sha256UpdateLoop fuel c data).state
      (sha256UpdateLoop fuel c data).buf ∧
    (sha256UpdateLoop fuel c data).bitlen = c.bitlen := by
  induction fuel generalizing c data msg with
  | zero =>
    rw [List.length_eq_zero_iff.mp (Nat.le_zero.mp hfuel), List.append_nil]
    exact ⟨h, rfl⟩
  | succ fuel ih =>
    by_cases hdata : data = []
    · rw [sha256UpdateLoop, if_pos hdata, hdata, List.append_nil]
      exact ⟨h, rfl⟩
    · obtain ⟨n, c', hpos, hloop, hbits, habs⟩ := sha256UpdateLoop_step fuel hdata h
      have hrest : (data.drop n).length ≤ fuel := by
        rw [List.length_drop]
        omega
      have hih := ih hrest habs
      rw [List.append_assoc, List.take_append_drop, hbits] at hih
      rw [hloop]
      exact hih

/-- **One update** holds the bytes handed over behind those before. -/
theorem Sha256Ctx.Holds.update {c : Sha256Ctx} {msg : List Byte} (h : c.Holds msg)
    (data : List Byte) : (sha256Update c data).Holds (msg ++ data) := by
  obtain ⟨habs, hbits⟩ := @sha256UpdateLoop_absorbed data.length
    { c with bitlen := c.bitlen + BitVec.ofNat 64 data.length * 8 } data msg (Nat.le_refl _)
    h.absorbed
  refine ⟨habs, hbits.trans ?_⟩
  have hmul : BitVec.ofNat 64 data.length * 8 = BitVec.ofNat 64 (8 * data.length) := by
    rw [Nat.mul_comm, BitVec.ofNat_mul]
    rfl
  rw [h.bitlen, hmul, List.length_append, Nat.mul_add, BitVec.ofNat_add]

/-- **A run of updates** holds the bytes of all chunks, however they were cut. -/
theorem Sha256Ctx.Holds.updates {c : Sha256Ctx} {msg : List Byte} (h : c.Holds msg)
    (chunks : List (List Byte)) : (chunks.foldl sha256Update c).Holds (msg ++ chunks.flatten) := by
  induction chunks generalizing c msg with
  | nil =>
    rw [List.flatten_nil, List.append_nil]
    exact h
  | cons chunk chunks ih =>
    rw [List.foldl_cons, List.flatten_cons, ← List.append_assoc]
    exact ih (h.update chunk)

/-! ### Padding -/

/-- The bytes of a word, the most significant first. -/
theorem bigEndian_eq (n : Nat) (v : BitVec (8 * n)) : bigEndian n v = Fips180.beBytes n v := by
  refine List.ext_getElem? fun i => ?_
  by_cases hi : i < n
  · have hlen : i < (putLe n v).length := by
      rw [length_putLe]
      exact hi
    have hbyte : BitVec.ofNat 8 (v.toNat / 256 ^ (n - 1 - i)) =
        v.extractLsb' (8 * (n - 1 - i)) 8 := by
      apply BitVec.eq_of_toNat_eq
      rw [BitVec.toNat_ofNat, BitVec.extractLsb'_toNat, Nat.shiftRight_eq_div_pow,
        two_pow_eight_mul]
    rw [bigEndian, List.getElem?_reverse hlen, length_putLe, putLe,
      getElem?_leBytes _ (by omega), hbyte, Fips180.beBytes, List.getElem?_map,
      List.getElem?_range hi]
    rfl
  · rw [List.getElem?_eq_none (by simp [bigEndian]; omega),
      List.getElem?_eq_none (by simp [Fips180.beBytes]; omega)]

/-- The zeros of `sha256_final`: up to the length in the block of the pad byte,
or to its end and through a second block. -/
theorem zeroBytes_eq (l : Nat) :
    Fips180.zeroBytes l =
      if l % 64 + 1 > 56 then 64 - (l % 64 + 1) + 56 else 56 - (l % 64 + 1) := by
  obtain ⟨hmod, hmin⟩ := Fips180.zeroBytes_spec l
  have hlt : l % 64 < 64 := Nat.mod_lt l (by decide)
  split
  · have hle := hmin (64 - (l % 64 + 1) + 56) (by omega)
    omega
  · have hle := hmin (56 - (l % 64 + 1)) (by omega)
    omega

/-- The state and the buffer of `sha256_final` behind the pad byte: where the
length does not fit any more, the block is filled with zeros and folded in. -/
def paddedCtx (c : Sha256Ctx) : Sha256State × List Byte :=
  let buf := c.buf ++ [0x80]
  if buf.length > 56 then (sha256Block c.state (buf ++ List.replicate (64 - buf.length) 0), [])
  else (c.state, buf)

/-- The state after the last block. -/
def finalState (c : Sha256Ctx) : Sha256State :=
  sha256Block (paddedCtx c).1 ((paddedCtx c).2 ++
    List.replicate (56 - (paddedCtx c).2.length) 0 ++ bigEndian 8 c.bitlen)

theorem sha256Final_val (c : Sha256Ctx) :
    (sha256Final c).val =
      bigEndian 4 (finalState c).a ++ bigEndian 4 (finalState c).b ++
        bigEndian 4 (finalState c).c ++ bigEndian 4 (finalState c).d ++
        bigEndian 4 (finalState c).e ++ bigEndian 4 (finalState c).f ++
        bigEndian 4 (finalState c).g ++ bigEndian 4 (finalState c).h := rfl

/-- The pad byte and the zeros, in one block or two. -/
theorem paddedCtx_absorbed {c : Sha256Ctx} {msg : List Byte} (h : c.Holds msg) :
    (paddedCtx c).2.length ≤ 56 ∧
    Absorbed 64 sha256Block sha256Init.state
      (msg ++ 0x80 :: List.replicate (Fips180.zeroBytes msg.length) 0) (paddedCtx c).1
      ((paddedCtx c).2 ++ List.replicate (56 - (paddedCtx c).2.length) 0) := by
  have hwaiting := h.absorbed.length_rest c.buf_lt
  have hbuf : (c.buf ++ [0x80]).length = msg.length % 64 + 1 := by
    rw [List.length_append, hwaiting, List.length_singleton]
  have hpad := h.absorbed.wait [0x80]
  unfold paddedCtx
  dsimp only
  rw [hbuf, zeroBytes_eq]
  split
  · -- the length opens a block of its own
    rename_i hlong
    have hlt : msg.length % 64 < 64 := Nat.mod_lt _ (by decide)
    have hzeros := hpad.wait (List.replicate (64 - (msg.length % 64 + 1)) 0)
    have hfull : (c.buf ++ [0x80] ++
        List.replicate (64 - (msg.length % 64 + 1)) 0).length = 64 := by
      rw [List.length_append, hbuf, List.length_replicate]
      omega
    have hnext := (hzeros.fill hfull).wait (List.replicate 56 0)
    refine ⟨Nat.zero_le 56, ?_⟩
    rw [List.replicate_add]
    simpa only [List.append_assoc, List.cons_append, List.nil_append, List.length_nil] using hnext
  · rename_i hshort
    have hzeros := hpad.wait (List.replicate (56 - (msg.length % 64 + 1)) 0)
    refine ⟨hbuf.trans_le (by omega), ?_⟩
    rw [hbuf]
    simpa only [List.append_assoc, List.cons_append, List.nil_append] using hzeros

/-- The last blocks of `sha256_final` end the padded message. -/
theorem finalState_absorbed {c : Sha256Ctx} {msg : List Byte} (h : c.Holds msg)
    (hlen : msg.length < 2 ^ 61) :
    Absorbed 64 sha256Block sha256Init.state (Fips180.pad ⟨msg, hlen⟩) (finalState c) [] := by
  have hbits : bigEndian 8 c.bitlen =
      Fips180.beBytes 8 (Fips180.Message.bitLength ⟨msg, hlen⟩) := by
    rw [bigEndian_eq, h.bitlen, Fips180.Message.bitLength, BitVec.ofNatLT_eq_ofNat]
  obtain ⟨hle, habs⟩ := paddedCtx_absorbed h
  have hlast := habs.wait (bigEndian 8 c.bitlen)
  have hfull : ((paddedCtx c).2 ++ List.replicate (56 - (paddedCtx c).2.length) 0 ++
      bigEndian 8 c.bitlen).length = 64 := by
    simp only [List.length_append, List.length_replicate, bigEndian, List.length_reverse,
      length_putLe]
    omega
  have hpad : Fips180.pad ⟨msg, hlen⟩ =
      msg ++ 0x80 :: List.replicate (Fips180.zeroBytes msg.length) 0 ++ bigEndian 8 c.bitlen := by
    rw [hbits, Fips180.pad, List.append_assoc, List.cons_append]
  rw [hpad]
  exact hlast.fill hfull

/-- **The digest of a context** is the digest of the bytes it holds. -/
theorem Sha256Ctx.Holds.final {c : Sha256Ctx} {msg : List Byte} (h : c.Holds msg)
    (hlen : msg.length < 2 ^ 61) : (sha256Final c).val = Fips180.sha256 ⟨msg, hlen⟩ := by
  have hstate := congrArg Sha256State.vars
    ((finalState_absorbed h hlen).eq_foldl (by decide))
  rw [foldl_sha256Block, sha256Init_vars] at hstate
  rw [sha256Final_val, Fips180.sha256, ← hstate]
  simp only [bigEndian_eq]
  rfl

/-- **The streaming hash is SHA-256.**  However a message below `2 ^ 61` bytes
is cut into chunks, the updates and `sha256_final` give its digest by the
standard, which is also what the one-shot helper gives. -/
theorem sha256_streaming (chunks : List (List Byte)) (hlen : chunks.flatten.length < 2 ^ 61) :
    (sha256Final (chunks.foldl sha256Update sha256Init)).val =
      Fips180.sha256 ⟨chunks.flatten, hlen⟩ ∧
    sha256Final (chunks.foldl sha256Update sha256Init) = sha256 chunks.flatten ∧
    ∀ chunks' : List (List Byte), chunks'.flatten = chunks.flatten →
      sha256Final (chunks'.foldl sha256Update sha256Init) =
        sha256Final (chunks.foldl sha256Update sha256Init) := by
  have hdigest : ∀ cs : List (List Byte), cs.flatten = chunks.flatten →
      (sha256Final (cs.foldl sha256Update sha256Init)).val =
        Fips180.sha256 ⟨chunks.flatten, hlen⟩ := by
    intro cs hcs
    have h := sha256Init_holds.updates cs
    rw [List.nil_append, hcs] at h
    exact h.final hlen
  have hsplit : ∀ cs : List (List Byte), cs.flatten = chunks.flatten →
      sha256Final (cs.foldl sha256Update sha256Init) =
        sha256Final (chunks.foldl sha256Update sha256Init) := by
    intro cs hcs
    exact Subtype.ext ((hdigest cs hcs).trans (hdigest chunks rfl).symm)
  refine ⟨hdigest chunks rfl, ?_, hsplit⟩
  have hone := hsplit [chunks.flatten] (by simp)
  rw [sha256]
  exact hone.symm

/-- The digest of `abc`, from an empty chunk and a cut inside a word. -/
theorem sha256_streaming_abc :
    Fips180.sha256 ⟨[0x61, 0x62, 0x63], by decide⟩ =
      [0xba, 0x78, 0x16, 0xbf, 0x8f, 0x01, 0xcf, 0xea, 0x41, 0x41, 0x40, 0xde, 0x5d, 0xae, 0x22,
        0x23, 0xb0, 0x03, 0x61, 0xa3, 0x96, 0x17, 0x7a, 0x9c, 0xb4, 0x10, 0xff, 0x61, 0xf2, 0x00,
        0x15, 0xad] := by
  have h := (sha256_streaming [[], [0x61, 0x62], [0x63]] (by decide)).1
  exact h.symm.trans (by decide +kernel)

end Oryx
