import ScriptLang.Proofs.Number.Rounding

/-!
# Doubles and their bits

Every double is what its sign, significand and exponent are packed into, and packing
loses nothing of them.
-/

namespace ScriptLang.Number

open Float.Model Float.Model.UnpackedFloat

variable {m : Nat} {e : Int}

/-- The significand of a double that is not among the smallest has its first bit
implied. -/
theorem toNat_one_append (b : BitVec 52) : (1#1 ++ b).toNat = 2 ^ 52 + b.toNat := by
  rw [BitVec.toNat_append, ← Nat.shiftLeft_add_eq_or_of_lt b.isLt]
  simp [Nat.shiftLeft_eq]

/-- The parts of the bits of a positive or negative double. -/
theorem unpack_eq_finite {b : BitVec Format.binary64.numBits} {s : Sign} {hm : 0 < m}
    (h : unpack .binary64 b = .finite s m e hm) :
    s = .ofBitVec (unpackSign b) ∧ unpackExponent b ≠ -1#_ ∧
      (unpackExponent b = 0#_ ∧ m = (unpackMantissa b).toNat ∧ e = -1074 ∨
        unpackExponent b ≠ 0#_ ∧ m = 2 ^ 52 + (unpackMantissa b).toNat ∧
          e = (unpackExponent b).toNat - 1075) := by
  simp only [UnpackedFloat.unpack] at h
  split at h
  next => split at h <;> cases h
  next finite =>
    split at h
    next zero =>
      split at h
      next => cases h
      next =>
        injection h with hs hm he
        refine ⟨hs.symm, finite, .inl ⟨zero, hm.symm, ?_⟩⟩
        rw [← he, zero]
        rfl
    next normal =>
      injection h with hs hm he
      refine ⟨hs.symm, finite, .inr ⟨normal, ?_, he.symm⟩⟩
      rw [← hm]
      exact toNat_one_append _

theorem isDouble_of_unpack {b : BitVec Format.binary64.numBits} {s : Sign} {hm : 0 < m}
    (h : unpack .binary64 b = .finite s m e hm) : IsDouble m e := by
  have mantissa := (unpackMantissa b).isLt
  have exponent := (unpackExponent b).isLt
  change _ < 2 ^ 52 at mantissa
  change _ < 2 ^ 11 at exponent
  obtain ⟨-, finite, ⟨-, rfl, rfl⟩ | ⟨normal, rfl, rfl⟩⟩ := unpack_eq_finite h
  · exact ⟨hm, by omega, by omega, by omega, .inr rfl⟩
  · have notLast : (unpackExponent b).toNat ≠ 2047 := fun last =>
      finite (BitVec.eq_of_toNat_eq last)
    have notZero : (unpackExponent b).toNat ≠ 0 := fun zero =>
      normal (BitVec.eq_of_toNat_eq zero)
    exact ⟨hm, by omega, by omega, by omega, .inl (by omega)⟩

/-- The bits of a double: the smallest ones have an exponent of zero. -/
theorem pack_finite (hd : IsDouble m e) (s : Sign) :
    UnpackedFloat.pack .binary64 (.finite s m e hd.pos) =
      packComponents .binary64 s
        (if 2 ^ 52 ≤ m then .ofNat _ (e + 1075).toNat else 0#_) (.ofNat _ m) := by
  obtain ⟨hpos, hlt, hmin, hmax, hn⟩ := hd
  have exponent : (e + (Format.binary64.exponentBias : Nat) +
      (Format.binary64.mantissaBitsWithoutImplicit : Nat)).toNat = (e + 1075).toNat := by
    change (e + 1023 + 52).toNat = _
    omega
  have fits : ¬2 ^ Format.binary64.exponentBits ≤ (e + 1075).toNat + 1 := by
    change ¬2048 ≤ (e + 1075).toNat + 1
    omega
  have log : m.log2 + 1 = Format.binary64.mantissaBits ↔ 2 ^ 52 ≤ m := by
    have upper : m.log2 < 53 := (Nat.log2_lt hpos.ne').mpr hlt
    rw [← Nat.le_log2 hpos.ne']
    change m.log2 + 1 = 53 ↔ _
    omega
  simp only [UnpackedFloat.pack, exponent, if_neg fits, log]
  split <;> rfl

theorem unpack_packComponents (hd : IsDouble m e) (s : Sign)
    {c : BitVec Format.binary64.exponentBits} (hc : c ≠ -1#_)
    (parts : c = 0#_ ∧ m < 2 ^ 52 ∧ e = -1074 ∨ c ≠ 0#_ ∧ 2 ^ 52 ≤ m ∧ e = c.toNat - 1075) :
    unpack .binary64 (packComponents .binary64 s c (.ofNat _ m)) = .finite s m e hd.pos := by
  have hpos := hd.pos
  have hlt := hd.lt
  have sign : Sign.ofBitVec s.toBitVec = s := by cases s <;> rfl
  simp only [UnpackedFloat.unpack, unpackMantissa_packComponents, unpackExponent_packComponents,
    unpackSign_packComponents, sign, if_neg hc]
  obtain ⟨zero, small, rfl⟩ | ⟨normal, large, rfl⟩ := parts
  · have mantissa : (BitVec.ofNat Format.binary64.mantissaBitsWithoutImplicit m).toNat = m :=
      Nat.mod_eq_of_lt small
    have nonzero : BitVec.ofNat Format.binary64.mantissaBitsWithoutImplicit m ≠ 0#_ := by
      intro h
      have := congrArg BitVec.toNat h
      rw [mantissa] at this
      exact hpos.ne' this
    simp only [dif_neg nonzero, mantissa, zero]
    rfl
  · have mantissa :
        (1#1 ++ BitVec.ofNat Format.binary64.mantissaBitsWithoutImplicit m).toNat = m := by
      refine (toNat_one_append _).trans ?_
      change 2 ^ 52 + m % 2 ^ 52 = m
      omega
    simp only [if_neg normal, mantissa]
    rfl

/-- A double is found again in the bits that it is packed into. -/
theorem unpack_pack (hd : IsDouble m e) (s : Sign) :
    unpack .binary64 (UnpackedFloat.pack .binary64 (.finite s m e hd.pos)) =
      .finite s m e hd.pos := by
  have hmin := hd.min_le
  have hmax := hd.le_max
  have hn := hd.normal
  rw [pack_finite hd]
  split
  next normal =>
    have exponent : (BitVec.ofNat 11 (e + 1075).toNat).toNat = (e + 1075).toNat := by
      rw [BitVec.toNat_ofNat]
      omega
    refine unpack_packComponents hd s (fun last => ?_) (.inr ⟨fun zero => ?_, normal, ?_⟩)
    · have := congrArg BitVec.toNat last
      change (BitVec.ofNat 11 (e + 1075).toNat).toNat = 2047 at this
      omega
    · have := congrArg BitVec.toNat zero
      change (BitVec.ofNat 11 (e + 1075).toNat).toNat = 0 at this
      omega
    · change e = (BitVec.ofNat 11 (e + 1075).toNat).toNat - 1075
      omega
  next small =>
    exact unpack_packComponents hd s (by decide) (.inl ⟨rfl, by omega, by omega⟩)

end ScriptLang.Number
