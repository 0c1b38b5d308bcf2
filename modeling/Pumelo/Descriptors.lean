import Pumelo.Foundation.Descriptor

/-!
# Segment descriptors and gates

`make_gdt_desc` and `make_intr_descriptor`, with the bytes that the processor finds.
-/

namespace Pumelo

open Foundation

/-- `struct gdt_desc` -/
structure GdtDesc where
  limitLowWord : UInt16
  baseLowWord : UInt16
  baseMidByte : UInt8
  attrLowByte : UInt8
  limitHighAttrHigh : UInt8
  baseHighByte : UInt8
  deriving DecidableEq, Repr

/-- `make_gdt_desc` -/
def makeGdtDesc (descBase limit : UInt32) (attrLow attrHigh : UInt8) : GdtDesc where
  limitLowWord := (limit &&& 0x0000ffff).toUInt16
  baseLowWord := (descBase &&& 0x0000ffff).toUInt16
  baseMidByte := ((descBase &&& 0x00ff0000) >>> 16).toUInt8
  attrLowByte := attrLow
  limitHighAttrHigh := (((limit &&& 0x000f0000) >>> 16) + attrHigh.toUInt32).toUInt8
  baseHighByte := (descBase >>> 24).toUInt8

/-- The members in memory. -/
def GdtDesc.image (desc : GdtDesc) : List UInt8 :=
  bytes16 desc.limitLowWord ++ bytes16 desc.baseLowWord ++
    [desc.baseMidByte, desc.attrLowByte, desc.limitHighAttrHigh, desc.baseHighByte]

/-- `struct intr_descriptor` -/
structure IntrDescriptor where
  offsetLow : UInt16
  selector : UInt16
  unused : UInt8
  attributes : UInt8
  offsetHigh : UInt16
  deriving DecidableEq, Repr

/-- `SELECTOR_KERNEL_CODE`, with `GDT_TI` and `RPL0`. -/
def selectorKernelCode : UInt16 := .ofNat ((0x1 <<< 3) + (0 <<< 2) + 0)

/-- `make_intr_descriptor` -/
def makeIntrDescriptor (attr : UInt8) (func : UInt32) : IntrDescriptor where
  offsetLow := (func &&& 0x0000ffff).toUInt16
  selector := selectorKernelCode
  unused := 0
  attributes := attr
  offsetHigh := ((func &&& 0xffff0000) >>> 16).toUInt16

/-- The members in memory. -/
def IntrDescriptor.image (pdesc : IntrDescriptor) : List UInt8 :=
  bytes16 pdesc.offsetLow ++ bytes16 pdesc.selector ++ [pdesc.unused, pdesc.attributes] ++
    bytes16 pdesc.offsetHigh

section Parts

variable (descBase limit : UInt32) (attrLow attrHigh : UInt8)

theorem toNat_baseMidByte :
    (makeGdtDesc descBase limit attrLow attrHigh).baseMidByte.toNat =
      descBase.toNat / 2 ^ 16 % 2 ^ 8 := by
  have masked : ((descBase &&& 0x00ff0000) >>> 16).toNat = descBase.toNat / 2 ^ 16 % 2 ^ 8 :=
    toNat_masked descBase 0x00ff0000 16 8 (by decide) (by decide)
  rw [makeGdtDesc, UInt32.toNat_toUInt8, masked, Nat.mod_mod]

theorem toNat_baseHighByte :
    (makeGdtDesc descBase limit attrLow attrHigh).baseHighByte.toNat = descBase.toNat / 2 ^ 24 := by
  have small := descBase.toNat_lt
  have amount : (24 : UInt32).toNat % 32 = 24 := rfl
  rw [makeGdtDesc, UInt32.toNat_toUInt8, UInt32.toNat_shiftRight, amount, Nat.shiftRight_eq_div_pow]
  omega

/-- The addition does not carry, as the lower half of the attributes is clear. -/
theorem toNat_limitHighAttrHigh (fits : limit.toNat < 2 ^ 20) (clear : attrHigh.toNat % 2 ^ 4 = 0) :
    (makeGdtDesc descBase limit attrLow attrHigh).limitHighAttrHigh.toNat =
      limit.toNat / 2 ^ 16 + attrHigh.toNat := by
  have high : ((limit &&& 0x000f0000) >>> 16).toNat = limit.toNat / 2 ^ 16 % 2 ^ 4 :=
    toNat_masked limit 0x000f0000 16 4 (by decide) (by decide)
  have byte := attrHigh.toNat_lt
  rw [makeGdtDesc, UInt32.toNat_toUInt8, UInt32.toNat_add, high, UInt8.toNat_toUInt32]
  omega

end Parts

/-- The processor reads back the address, the limit and the attributes. -/
theorem decode_gdtDesc (descBase : UInt32) {limit : UInt32} (fits : limit < 2 ^ 20)
    (attrLow : UInt8)
    {attrHigh : UInt8} (aligned : attrHigh &&& 0xf = 0) :
    Segment.decode (makeGdtDesc descBase limit attrLow attrHigh).image =
      some ⟨descBase, limit, attrLow, attrHigh⟩ := by
  have clear : attrHigh.toNat % 2 ^ 4 = 0 := by
    have masked := congrArg UInt8.toNat aligned
    rw [UInt8.toNat_and] at masked
    exact (Nat.and_two_pow_sub_one_eq_mod attrHigh.toNat 4).symm.trans masked
  have small : limit.toNat < 2 ^ 20 := UInt32.lt_iff_toNat_lt.mp fits
  obtain ⟨limitHigh, flags⟩ := shared_parts (Nat.div_lt_of_lt_mul small) clear
    (toNat_limitHighAttrHigh descBase limit attrLow attrHigh small clear)
  have address : UInt32.ofNat (((makeGdtDesc descBase limit attrLow attrHigh).baseLowWord.toNat +
      2 ^ 16 * (makeGdtDesc descBase limit attrLow attrHigh).baseMidByte.toNat) +
      2 ^ 24 * (makeGdtDesc descBase limit attrLow attrHigh).baseHighByte.toNat) = descBase := by
    have bound := descBase.toNat_lt
    apply UInt32.toNat_inj.mp
    rw [toNat_baseMidByte, toNat_baseHighByte, UInt32.toNat_ofNat']
    have low : (makeGdtDesc descBase limit attrLow attrHigh).baseLowWord.toNat =
        descBase.toNat % 2 ^ 16 :=
      toNat_low16 descBase
    omega
  have range : UInt32.ofNat ((makeGdtDesc descBase limit attrLow attrHigh).limitLowWord.toNat +
      2 ^ 16 * ((makeGdtDesc descBase limit attrLow attrHigh).limitHighAttrHigh &&& 0xf).toNat) =
      limit := by
    apply UInt32.toNat_inj.mp
    rw [limitHigh, UInt32.toNat_ofNat']
    have low : (makeGdtDesc descBase limit attrLow attrHigh).limitLowWord.toNat =
        limit.toNat % 2 ^ 16 :=
      toNat_low16 limit
    omega
  rw [GdtDesc.image, Segment.decode_words, address, range, flags]
  rfl

/-- The processor reads back the handler, the selector and the attributes. -/
theorem decode_intrDescriptor (attr : UInt8) (func : UInt32) :
    Gate.decode (makeIntrDescriptor attr func).image = some ⟨func, selectorKernelCode, attr⟩ := by
  have handler : UInt32.ofNat ((makeIntrDescriptor attr func).offsetLow.toNat +
      2 ^ 16 * (makeIntrDescriptor attr func).offsetHigh.toNat) = func := by
    have bound := func.toNat_lt
    have low : (makeIntrDescriptor attr func).offsetLow.toNat = func.toNat % 2 ^ 16 :=
      toNat_low16 func
    have masked : ((func &&& 0xffff0000) >>> 16).toNat = func.toNat / 2 ^ 16 % 2 ^ 16 :=
      toNat_masked func 0xffff0000 16 16 (by decide) (by decide)
    have high : (makeIntrDescriptor attr func).offsetHigh.toNat = func.toNat / 2 ^ 16 % 2 ^ 16 := by
      rw [makeIntrDescriptor, UInt32.toNat_toUInt16, masked, Nat.mod_mod]
    apply UInt32.toNat_inj.mp
    rw [low, high, UInt32.toNat_ofNat']
    omega
  rw [IntrDescriptor.image, Gate.decode_words, handler]
  rfl

/-- Descriptors and gates say what they were made from. -/
theorem descriptors_decode (descBase : UInt32) {limit : UInt32} (fits : limit < 2 ^ 20)
    (attrLow : UInt8)
    {attrHigh : UInt8} (aligned : attrHigh &&& 0xf = 0) (attr : UInt8) (func : UInt32) :
    Segment.decode (makeGdtDesc descBase limit attrLow attrHigh).image =
        some ⟨descBase, limit, attrLow, attrHigh⟩ ∧
      Gate.decode (makeIntrDescriptor attr func).image = some ⟨func, selectorKernelCode, attr⟩ :=
  ⟨decode_gdtDesc descBase fits attrLow aligned, decode_intrDescriptor attr func⟩

/-- The TSS and the gate of the timer. -/
theorem descriptors_decode_tss :
    Segment.decode (makeGdtDesc 0xc0012340 107 0x89 0x80).image =
      some ⟨0xc0012340, 107, 0x89, 0x80⟩ ∧
      Gate.decode (makeIntrDescriptor 0x8e 0xc0004567).image =
        some ⟨0xc0004567, selectorKernelCode, 0x8e⟩ :=
  descriptors_decode 0xc0012340 (by decide) 0x89 (by decide) 0x8e 0xc0004567

end Pumelo
