import SphereVFS.Lib.Crc

/-!
# SphereVFS.Crc32c

The three ways to the checksum of a page: the table of `crc32c.c`, and the loops over the CRC32C
instructions of the two architectures, eight, four and one byte at a time.

What an instruction computes is not in the sources. It is a parameter with the meaning that both
architectures give it: the remainder of the reflected operand after the reflected register.
-/

namespace SphereVFS
namespace Crc32c

open Polynomial

/-- The polynomial, reflected. -/
def castagnoli : BitVec 32 := 0x82F63B78#32

def allOnes : BitVec 32 := 0xFFFFFFFF#32

/-! ## The table -/

/-- The body of the inner loop of `vfs_crc32c_init_table`. -/
def tableStep (crc : BitVec 32) : BitVec 32 :=
  (crc >>> 1) ^^^ (if crc &&& 1#32 ≠ 0#32 then castagnoli else 0#32)

/-- `s_crc32c_table`, as `vfs_crc32c_init_table` fills it. -/
def crc32cTable (i : Nat) : BitVec 32 := tableStep^[8] (BitVec.ofNat 32 i)

def swStep (crc : BitVec 32) (b : BitVec 8) : BitVec 32 :=
  (crc >>> 8) ^^^ crc32cTable ((crc ^^^ b.setWidth 32) &&& 0xFF#32).toNat

def vfsCrc32cSw (data : List (BitVec 8)) : BitVec 32 := data.foldl swStep allOnes ^^^ allOnes

/-! ## The instructions -/

/-- A loop over chunks of `k + 1` bytes, `for (; i + k + 1 <= len; i += k + 1)`: the register and the
rest of the data. -/
def hwLoop (k : Nat) (instr : BitVec 32 → BitVec (8 * (k + 1)) → BitVec 32) (crc : BitVec 32)
    (data : List (BitVec 8)) : BitVec 32 × List (BitVec 8) :=
  if k + 1 ≤ data.length then
    hwLoop k instr (instr crc (Crc.load (k + 1) data)) (data.drop (k + 1))
  else (crc, data)
termination_by data.length
decreasing_by rw [List.length_drop]; omega

def hwCrc32c (u64 : BitVec 32 → BitVec 64 → BitVec 32) (u32 : BitVec 32 → BitVec 32 → BitVec 32)
    (u8 : BitVec 32 → BitVec 8 → BitVec 32) (data : List (BitVec 8)) : BitVec 32 :=
  let (crc, rest) := hwLoop 7 u64 allOnes data
  let (crc, rest) := hwLoop 3 u32 crc rest
  rest.foldl u8 crc ^^^ allOnes

/-- The instructions of SSE4.2. The register of `_mm_crc32_u64` has 64 bits. -/
structure X86 where
  u64 : BitVec 64 → BitVec 64 → BitVec 64
  u32 : BitVec 32 → BitVec 32 → BitVec 32
  u8 : BitVec 32 → BitVec 8 → BitVec 32

def X86.u64Low (isa : X86) (crc : BitVec 32) (chunk : BitVec 64) : BitVec 32 :=
  (isa.u64 (crc.setWidth 64) chunk).setWidth 32

def vfsCrc32cHwX86 (isa : X86) : List (BitVec 8) → BitVec 32 := hwCrc32c isa.u64Low isa.u32 isa.u8

structure Arm where
  crc32cd : BitVec 32 → BitVec 64 → BitVec 32
  crc32cw : BitVec 32 → BitVec 32 → BitVec 32
  crc32cb : BitVec 32 → BitVec 8 → BitVec 32

def vfsCrc32cHwArm (isa : Arm) : List (BitVec 8) → BitVec 32 :=
  hwCrc32c isa.crc32cd isa.crc32cw isa.crc32cb

/-- What the manuals say: the operand stands before 32 zeros, the register before as many as the operand
has bits, and their sum is divided by `0x11EDC6F41`. -/
def IsaMeaning {w : Nat} (instr : BitVec 32 → BitVec w → BitVec 32) : Prop :=
  ∀ crc v, Crc.poly (instr crc v) =
    (Crc.poly v * X ^ 32 + Crc.poly crc * X ^ w) %ₘ Crc.generator castagnoli

structure X86.Isa (isa : X86) : Prop where
  u64 : IsaMeaning isa.u64Low
  u32 : IsaMeaning isa.u32
  u8 : IsaMeaning isa.u8

structure Arm.Isa (isa : Arm) : Prop where
  crc32cd : IsaMeaning isa.crc32cd
  crc32cw : IsaMeaning isa.crc32cw
  crc32cb : IsaMeaning isa.crc32cb

/-! ## Bit by bit -/

/-- The checksum without a table: each byte is added to the register, which is then shifted by one bit
eight times. -/
def crc32cBits (data : List (BitVec 8)) : BitVec 32 :=
  data.foldl (Crc.feed castagnoli) allOnes ^^^ allOnes

theorem tableStep_eq_shift : tableStep = Crc.shift castagnoli := by
  funext crc
  rw [tableStep, Crc.shift, BitVec.and_one_eq_setWidth_ofBool_getLsbD]
  cases crc.getLsbD 0 <;> simp

theorem vfsCrc32cSw_eq_bits (data : List (BitVec 8)) : vfsCrc32cSw data = crc32cBits data := by
  have hstep : swStep = Crc.feed castagnoli := by
    funext crc b
    rw [Crc.feed_eq_table, swStep, crc32cTable, BitVec.ofNat_toNat, BitVec.setWidth_eq, tableStep_eq_shift]
  rw [vfsCrc32cSw, hstep, crc32cBits]

theorem IsaMeaning.load {k : Nat} {instr : BitVec 32 → BitVec (8 * k) → BitVec 32} (h : IsaMeaning instr)
    (crc : BitVec 32) {data : List (BitVec 8)} (hk : k ≤ data.length) :
    instr crc (Crc.load k data) = (data.take k).foldl (Crc.feed castagnoli) crc := by
  refine Crc.residue_injective castagnoli ?_
  rw [Crc.residue_load castagnoli (by decide) k crc hk, ← Crc.poly_eq_mod_iff]
  exact h crc _

theorem IsaMeaning.byte {instr : BitVec 32 → BitVec 8 → BitVec 32} (h : IsaMeaning instr) :
    instr = Crc.feed castagnoli := by
  funext crc b
  refine Crc.residue_injective castagnoli ?_
  rw [Crc.residue_feed castagnoli (by decide), ← Crc.poly_eq_mod_iff]
  exact h crc b

theorem hwLoop_feed {k : Nat} {instr : BitVec 32 → BitVec (8 * (k + 1)) → BitVec 32} (h : IsaMeaning instr)
    (crc : BitVec 32) (data : List (BitVec 8)) :
    (hwLoop k instr crc data).2.foldl (Crc.feed castagnoli) (hwLoop k instr crc data).1 =
      data.foldl (Crc.feed castagnoli) crc := by
  fun_induction hwLoop k instr crc data with
  | case1 crc data hlen ih =>
    rw [ih, h.load crc hlen, ← List.foldl_append, List.take_append_drop]
  | case2 crc data hlen => rfl

theorem hwCrc32c_eq_bits {u64 : BitVec 32 → BitVec 64 → BitVec 32} {u32 : BitVec 32 → BitVec 32 → BitVec 32}
    {u8 : BitVec 32 → BitVec 8 → BitVec 32} (h64 : IsaMeaning u64) (h32 : IsaMeaning u32)
    (h8 : IsaMeaning u8) (data : List (BitVec 8)) : hwCrc32c u64 u32 u8 data = crc32cBits data := by
  rw [crc32cBits, ← hwLoop_feed (k := 7) h64, ← hwLoop_feed (k := 3) h32, ← h8.byte]
  rfl

/-- **The paths agree.** For every byte string, the loops over the instructions and the loop over the
table give the checksum that is computed bit by bit. -/
theorem crc32c_paths_agree {x86 : X86} {arm : Arm} (hx86 : x86.Isa) (harm : arm.Isa) (data : List (BitVec 8)) :
    vfsCrc32cHwX86 x86 data = vfsCrc32cSw data ∧ vfsCrc32cHwArm arm data = vfsCrc32cSw data ∧
      vfsCrc32cSw data = crc32cBits data := by
  have hsw := vfsCrc32cSw_eq_bits data
  refine ⟨?_, ?_, hsw⟩
  · rw [hsw]
    exact hwCrc32c_eq_bits hx86.u64 hx86.u32 hx86.u8 data
  · rw [hsw]
    exact hwCrc32c_eq_bits harm.crc32cd harm.crc32cw harm.crc32cb data

/-- Instructions that shift the register once for each bit; the long operand in two halves. -/
def serialArm : Arm where
  crc32cd crc v := Crc.feed castagnoli (Crc.feed castagnoli crc (v.extractLsb' 0 32)) (v.extractLsb' 32 32)
  crc32cw := Crc.feed castagnoli
  crc32cb := Crc.feed castagnoli

def serialX86 : X86 where
  u64 crc v := (serialArm.crc32cd (crc.setWidth 32) v).setWidth 64
  u32 := Crc.feed castagnoli
  u8 := Crc.feed castagnoli

theorem feed_isa {w : Nat} (hw : w ≤ 32) :
    IsaMeaning (Crc.feed castagnoli : BitVec 32 → BitVec w → BitVec 32) := fun crc v =>
  (Crc.poly_eq_mod_iff castagnoli _ _).2 (Crc.residue_feed castagnoli hw crc v)

theorem serialArm_isa : serialArm.Isa := by
  refine ⟨fun crc v => (Crc.poly_eq_mod_iff castagnoli _ _).2 ?_, feed_isa (by decide), feed_isa (by decide)⟩
  have hv : v = v.extractLsb' 32 32 ++ v.extractLsb' 0 32 := by
    refine BitVec.eq_of_getLsbD_eq fun i hi => ?_
    rw [BitVec.getLsbD_append, BitVec.getLsbD_extractLsb', BitVec.getLsbD_extractLsb']
    split
    · simp [*]
    · have h1 : i - 32 < 32 := by omega
      have h2 : 32 + (i - 32) = i := by omega
      simp [h1, h2]
  have hlow := Crc.residue_feed castagnoli (by decide) crc (v.extractLsb' 0 32)
  conv_rhs => rw [hv]
  rw [serialArm, Crc.residue_feed castagnoli (by decide), Crc.poly_append, map_add, map_mul,
    map_mul, show AdjoinRoot.mk _ (Crc.poly _) = _ from hlow]
  simp only [map_add, map_mul, map_pow, AdjoinRoot.mk_X]
  ring

theorem serialX86_isa : serialX86.Isa := by
  refine ⟨fun crc v => ?_, feed_isa (by decide), feed_isa (by decide)⟩
  have hlow : serialX86.u64Low crc v = serialArm.crc32cd crc v := by simp [X86.u64Low, serialX86]
  rw [hlow]
  exact serialArm_isa.crc32cd crc v

/-- The check value of the digits `123456789`: one chunk of eight bytes, and one byte. -/
theorem crc32c_paths_agree_digits :
    vfsCrc32cHwX86 serialX86 [49, 50, 51, 52, 53, 54, 55, 56, 57] = 0xE3069283#32 ∧
      vfsCrc32cHwArm serialArm [49, 50, 51, 52, 53, 54, 55, 56, 57] = 0xE3069283#32 := by
  have hsw : vfsCrc32cSw [49, 50, 51, 52, 53, 54, 55, 56, 57] = 0xE3069283#32 := by decide +kernel
  obtain ⟨hx86, harm, -⟩ :=
    crc32c_paths_agree serialX86_isa serialArm_isa [49, 50, 51, 52, 53, 54, 55, 56, 57]
  exact ⟨hx86.trans hsw, harm.trans hsw⟩

/-- **Bursts change the checksum.** Two byte strings that differ only within 32 consecutive bits have
different checksums, whichever way they are computed. -/
theorem crc32c_detects_burst {x86 : X86} {arm : Arm} (hx86 : x86.Isa) (harm : arm.Isa)
    {data data' : List (BitVec 8)} (pre post : List Bool) {burst burst' : List Bool}
    (hdata : Crc.bits data = pre ++ burst ++ post) (hdata' : Crc.bits data' = pre ++ burst' ++ post)
    (hlen : burst.length = burst'.length) (hle : burst.length ≤ 32) (hne : burst ≠ burst') :
    vfsCrc32cSw data ≠ vfsCrc32cSw data' ∧ vfsCrc32cHwX86 x86 data ≠ vfsCrc32cHwX86 x86 data' ∧
      vfsCrc32cHwArm arm data ≠ vfsCrc32cHwArm arm data' := by
  have hbits : crc32cBits data ≠ crc32cBits data' := by
    rw [crc32cBits, crc32cBits, Ne, BitVec.xor_left_inj]
    exact Crc.burst_ne castagnoli (by decide) (by decide) hdata hdata' hlen hle hne allOnes
  refine ⟨?_, ?_, ?_⟩
  · rwa [vfsCrc32cSw_eq_bits, vfsCrc32cSw_eq_bits]
  · rwa [vfsCrc32cHwX86, hwCrc32c_eq_bits hx86.u64 hx86.u32 hx86.u8, hwCrc32c_eq_bits hx86.u64 hx86.u32 hx86.u8]
  · rwa [vfsCrc32cHwArm, hwCrc32c_eq_bits harm.crc32cd harm.crc32cw harm.crc32cb,
      hwCrc32c_eq_bits harm.crc32cd harm.crc32cw harm.crc32cb]

theorem crc32c_detects_burst_two : vfsCrc32cSw [0x81#8, 0x00#8] ≠ vfsCrc32cSw [0x01#8, 0x01#8] :=
  have hlast : Crc.bits [0x81#8, 0x00#8] = (true :: List.replicate 6 false) ++ [true, false] ++
      List.replicate 7 false := by decide
  have hfirst : Crc.bits [0x01#8, 0x01#8] = (true :: List.replicate 6 false) ++ [false, true] ++
      List.replicate 7 false := by decide
  (crc32c_detects_burst serialX86_isa serialArm_isa _ _ hlast hfirst rfl (by decide) (by decide)).1

end Crc32c
end SphereVFS
