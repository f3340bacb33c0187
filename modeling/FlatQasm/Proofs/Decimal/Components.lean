import FlatQasm.Decimal.Binary
import Mathlib

/-!
# Floats as signs and magnitudes

A float is taken apart into its sign and the bits of its magnitude, and put together again.  For
finite floats nothing is lost, and a negation changes the sign only.

## Main statements

* `pack_unpack` — a finite float is packed as it was.
* `ofSignAndBits_magnitudeBits` — a finite float is put together from its sign and magnitude.
* `neg_ofSignAndBits` — a negation changes the sign.
-/

namespace FlatQasm.Decimal

open Float.Model Float.Model.UnpackedFloat

/-! ## Fields -/

section Fields

variable (b : BitVec Format.binary64.numBits)

theorem toNat_unpackSign : (@unpackSign Format.binary64 b).toNat = b.toNat / 2 ^ 63 := by
  have hb : b.toNat < 2 ^ 64 := b.isLt
  simp only [unpackSign, BitVec.toNat_cast, BitVec.extractLsb_toNat, Nat.shiftRight_eq_div_pow]
  omega

theorem toNat_unpackExponent :
    (@unpackExponent Format.binary64 b).toNat = b.toNat / 2 ^ 52 % 2 ^ 11 := by
  simp only [unpackExponent, BitVec.toNat_cast, BitVec.extractLsb_toNat,
    Nat.shiftRight_eq_div_pow]

theorem toNat_unpackMantissa : (@unpackMantissa Format.binary64 b).toNat = b.toNat % 2 ^ 52 := by
  simp only [unpackMantissa, BitVec.toNat_cast, BitVec.extractLsb_toNat,
    Nat.shiftRight_eq_div_pow]
  simp

end Fields

section Components

variable (s : Sign) (e : BitVec 11) (m : BitVec 52)

theorem toNat_packComponents : (packComponents Format.binary64 s e m).toNat =
    s.toBitVec.toNat * 2 ^ 63 + e.toNat * 2 ^ 52 + m.toNat := by
  have he : e.toNat < 2 ^ 11 := e.isLt
  have hm : m.toNat < 2 ^ 52 := m.isLt
  simp only [packComponents, BitVec.toNat_append]
  rw [← Nat.shiftLeft_add_eq_or_of_lt he, ← Nat.shiftLeft_add_eq_or_of_lt hm, Nat.shiftLeft_eq,
    Nat.shiftLeft_eq]
  omega

theorem unpackSign_packComponents :
    @unpackSign Format.binary64 (packComponents Format.binary64 s e m) = s.toBitVec := by
  apply BitVec.eq_of_toNat_eq
  rw [toNat_unpackSign, toNat_packComponents]
  have he : e.toNat < 2 ^ 11 := e.isLt
  have hm : m.toNat < 2 ^ 52 := m.isLt
  omega

@[simp] theorem ofBitVec_toBitVec : Sign.ofBitVec s.toBitVec = s := by
  cases s <;> rfl

/-- A negation changes the sign and nothing else. -/
theorem neg_unpack (he : e ≠ -1#11) :
    (UnpackedFloat.unpack Format.binary64 (packComponents Format.binary64 s e m)).neg =
      UnpackedFloat.unpack Format.binary64 (packComponents Format.binary64 (-s) e m) := by
  have he' : ¬ e = -BitVec.ofNat Format.binary64.exponentBits 1 := he
  simp only [UnpackedFloat.unpack, unpackExponent_packComponents, unpackMantissa_packComponents,
    unpackSign_packComponents, ofBitVec_toBitVec, if_neg he']
  split
  · split <;> rfl
  · rfl

theorem pack_subnormal (hm : 0 < m.toNat) :
    UnpackedFloat.pack Format.binary64 (.finite s m.toNat (-1074) hm) =
      packComponents Format.binary64 s 0#11 m := by
  have hlt : m.toNat < 2 ^ 52 := m.isLt
  have hlog : m.toNat.log2 < 52 := (Nat.log2_lt (by omega)).mpr hlt
  have hbiased : (-1074 + (Format.binary64.exponentBias : Int) +
      (Format.binary64.mantissaBitsWithoutImplicit : Int)).toNat = 1 := by decide
  have hbits : Format.binary64.mantissaBits = 53 := rfl
  rw [UnpackedFloat.pack]
  simp only [hbiased, hbits]
  rw [if_neg (by decide), if_neg (by omega), BitVec.ofNat_toNat, BitVec.setWidth_eq]

theorem pack_normal (hzero : e ≠ 0#11) (he : e ≠ -1#11) (hm : 0 < 2 ^ 52 + m.toNat) :
    UnpackedFloat.pack Format.binary64 (.finite s (2 ^ 52 + m.toNat) (e.toNat - 1075) hm) =
      packComponents Format.binary64 s e m := by
  have hlt : m.toNat < 2 ^ 52 := m.isLt
  have hpos : e.toNat ≠ 0 := fun h => hzero (BitVec.eq_of_toNat_eq h)
  have hfinite : e.toNat ≠ 2 ^ 11 - 1 := fun h => he (BitVec.eq_of_toNat_eq h)
  have hlog : (2 ^ 52 + m.toNat).log2 = 52 := by
    rw [Nat.log2_eq_iff (by omega)]
    omega
  have hbias : (Format.binary64.exponentBias : Int) = 1023 := rfl
  have hstored : (Format.binary64.mantissaBitsWithoutImplicit : Int) = 52 := rfl
  have hbiased : ((e.toNat : Int) - 1075 + (Format.binary64.exponentBias : Int) +
      (Format.binary64.mantissaBitsWithoutImplicit : Int)).toNat = e.toNat := by omega
  have helt : e.toNat < 2 ^ 11 := e.isLt
  have hexponent : BitVec.ofNat 11 e.toNat = e := by
    rw [BitVec.ofNat_toNat, BitVec.setWidth_eq]
  have hmantissa : BitVec.ofNat 52 (2 ^ 52 + m.toNat) = m := by
    apply BitVec.eq_of_toNat_eq
    rw [BitVec.toNat_ofNat]
    omega
  rw [UnpackedFloat.pack]
  simp only [hbiased, hlog]
  rw [if_neg (show ¬ 2 ^ 11 ≤ e.toNat + 1 by omega),
    if_pos (show 52 + 1 = Format.binary64.mantissaBits from rfl)]
  exact congr (congrArg (packComponents Format.binary64 s) hexponent) hmantissa

/-- **A finite float is packed as it was.** -/
theorem pack_unpack (he : e ≠ -1#11) :
    UnpackedFloat.pack Format.binary64
        (UnpackedFloat.unpack Format.binary64 (packComponents Format.binary64 s e m)) =
      packComponents Format.binary64 s e m := by
  have he' : ¬ e = -BitVec.ofNat Format.binary64.exponentBits 1 := he
  simp only [UnpackedFloat.unpack, unpackExponent_packComponents, unpackMantissa_packComponents,
    unpackSign_packComponents, ofBitVec_toBitVec, if_neg he']
  split
  · next hzero =>
    subst hzero
    split
    · next hm =>
      subst hm
      rfl
    · next hm => exact pack_subnormal s m _
  · next hzero =>
    have himplicit : (1#1 ++ m).toNat = 2 ^ 52 + m.toNat := by
      rw [BitVec.toNat_append, ← Nat.shiftLeft_add_eq_or_of_lt m.isLt]
      rfl
    simp only [himplicit]
    exact pack_normal s e m hzero he _

end Components

/-! ## Floats -/

section Floats

theorem exists_components (b : BitVec Format.binary64.numBits) :
    ∃ s e m, b = packComponents Format.binary64 s e m := by
  refine ⟨Sign.ofBitVec (unpackSign b), unpackExponent b, unpackMantissa b, ?_⟩
  have hsign (v : BitVec 1) : (Sign.ofBitVec v).toBitVec = v := by
    have hv : v = 0#1 ∨ v = 1#1 := by
      have := v.isLt
      obtain h | h : v.toNat = 0 ∨ v.toNat = 1 := by omega
      · exact .inl (BitVec.eq_of_toNat_eq h)
      · exact .inr (BitVec.eq_of_toNat_eq h)
    obtain rfl | rfl := hv <;> rfl
  have hb : b.toNat < 2 ^ 64 := b.isLt
  apply BitVec.eq_of_toNat_eq
  rw [toNat_packComponents, hsign, toNat_unpackSign, toNat_unpackExponent, toNat_unpackMantissa]
  omega

/-- Floats are equal when their bits are. -/
theorem eq_of_toBits_eq {x y : Float} (h : x.toBits = y.toBits) : x = y := by
  obtain ⟨⟨_, _⟩⟩ := x
  obtain ⟨⟨_, _⟩⟩ := y
  cases h
  rfl

variable {x : Float} {bits : Nat}

theorem exponent_ne_of_lt {s : Sign} {e : BitVec 11} {m : BitVec 52}
    (h : (packComponents Format.binary64 s e m).toNat % signPlace < infinityBits) :
    e ≠ -1#11 := by
  rintro rfl
  have hs : s.toBitVec.toNat < 2 := s.toBitVec.isLt
  have hones : (-1#11).toNat = 2047 := rfl
  rw [toNat_packComponents, hones] at h
  simp only [signPlace, infinityBits] at h
  omega

/-- The bits of a finite magnitude with a sign are those that it was made of. -/
theorem toBits_ofSignAndBits (negative : Bool) (h : bits < infinityBits) :
    (ofSignAndBits negative bits).toBits.toNat = bits + if negative then signPlace else 0 := by
  have hlt : bits + (if negative then signPlace else 0) < 2 ^ 64 := by
    simp only [infinityBits] at h
    simp only [signPlace]
    split <;> omega
  generalize hu : UInt64.ofNat (bits + if negative then signPlace else 0) = u
  have hnat : u.toNat = bits + if negative then signPlace else 0 := by
    rw [← hu, UInt64.toNat_ofNat_of_lt' hlt]
  obtain ⟨s, e, m, hb⟩ := exists_components u.toBitVec
  have hne : e ≠ -1#11 := by
    apply exponent_ne_of_lt (s := s) (m := m)
    rw [← hb, UInt64.toNat_toBitVec, hnat]
    simp only [infinityBits] at h ⊢
    simp only [signPlace]
    split <;> omega
  have hbits : (Float.ofBits u).toBits = u := by
    change UInt64.ofBitVec (UnpackedFloat.pack Format.binary64
      (UnpackedFloat.unpack Format.binary64 u.toBitVec)) = u
    rw [hb, pack_unpack s e m hne, ← hb]
  simp only [ofSignAndBits]
  rw [hu, hbits, hnat]

theorem magnitudeBits_lt (hx : x.isFinite) : magnitudeBits x < infinityBits := by
  obtain ⟨s, e, m, hb⟩ := exists_components x.toBits.toBitVec
  have hne : e ≠ -1#11 := by
    intro he
    have hfinite : (UnpackedFloat.unpack Format.binary64 x.toBits.toBitVec).isFinite := hx
    have he' : e = -BitVec.ofNat Format.binary64.exponentBits 1 := he
    rw [hb] at hfinite
    simp only [UnpackedFloat.unpack, unpackExponent_packComponents, if_pos he'] at hfinite
    split at hfinite <;> cases hfinite
  have hfield : e.toNat ≠ 2047 := fun h => hne (BitVec.eq_of_toNat_eq h)
  have he : e.toNat < 2 ^ 11 := e.isLt
  have hm : m.toNat < 2 ^ 52 := m.isLt
  simp only [magnitudeBits, infinityBits, signPlace]
  rw [← UInt64.toNat_toBitVec, hb, toNat_packComponents]
  omega

/-- **A finite float is put together from its sign and its magnitude.** -/
theorem ofSignAndBits_magnitudeBits (hx : x.isFinite) :
    ofSignAndBits (isNegative x) (magnitudeBits x) = x := by
  have hlt : x.toBits.toNat < 2 ^ 64 := x.toBits.toNat_lt
  apply eq_of_toBits_eq
  apply UInt64.toNat.inj
  rw [toBits_ofSignAndBits _ (magnitudeBits_lt hx)]
  unfold magnitudeBits isNegative signPlace
  split
  · simp_all
    omega
  · simp_all

/-- **A negation changes the sign.** -/
theorem neg_ofSignAndBits (negative : Bool) (h : bits < infinityBits) :
    -ofSignAndBits negative bits = ofSignAndBits (!negative) bits := by
  have hbits := toBits_ofSignAndBits negative h
  generalize ofSignAndBits negative bits = x at hbits
  obtain ⟨s, e, m, hb⟩ := exists_components x.toBits.toBitVec
  have hnat := congrArg BitVec.toNat hb
  rw [UInt64.toNat_toBitVec, hbits] at hnat
  have hne : e ≠ -1#11 := by
    apply exponent_ne_of_lt (s := s) (m := m)
    rw [← hnat]
    simp only [infinityBits, signPlace] at *
    split <;> omega
  have hneg : (-x).toBits = UInt64.ofBitVec (packComponents Format.binary64 (-s) e m) := by
    change UInt64.ofBitVec (UnpackedFloat.pack Format.binary64
      (UnpackedFloat.unpack Format.binary64 x.toBits.toBitVec).neg) = _
    rw [hb, neg_unpack s e m hne, pack_unpack (-s) e m hne]
  apply eq_of_toBits_eq
  apply UInt64.toNat.inj
  rw [toBits_ofSignAndBits (!negative) h, hneg]
  change (packComponents Format.binary64 (-s) e m).toNat =
    bits + if (!negative) = true then signPlace else 0
  have he : e.toNat < 2 ^ 11 := e.isLt
  have hm : m.toNat < 2 ^ 52 := m.isLt
  have hplus : Sign.positive.toBitVec.toNat = 0 := rfl
  have hminus : Sign.negative.toBitVec.toNat = 1 := rfl
  rw [toNat_packComponents] at hnat ⊢
  simp only [infinityBits, signPlace] at h hnat ⊢
  -- The sign of the components is the one that was asked for.
  cases s with
  | positive =>
    have hopposite : -Sign.positive = .negative := rfl
    simp only [hopposite, hplus, hminus] at hnat ⊢
    cases negative <;> simp at hnat ⊢ <;> omega
  | negative =>
    have hopposite : -Sign.negative = .positive := rfl
    simp only [hopposite, hplus, hminus] at hnat ⊢
    cases negative <;> simp at hnat ⊢ <;> omega

end Floats

end FlatQasm.Decimal
