import Mathlib
import Lox.Number

/-!
Rounding.  `nearest` takes the magnitude whose value is closest to a fraction, and of two that are equally
close the even one.  Infinity takes part with the value that its bits would have as a finite magnitude.
-/

set_option autoImplicit false

namespace Lox.Number

def gap (a b : Nat) : Nat := (a - b) + (b - a)

/-- How far the value of a magnitude is from `num / den`, in units of `2 ^ (-1074) / den`. -/
def distance (num den magnitude : Nat) : Nat := gap (units magnitude * den) (num * Nat.pow 2 1074)

/-- No magnitude up to that of infinity is closer to the fraction, and none as close unless this one is
even. -/
structure IsNearest (num den magnitude : Nat) : Prop where
  bounded : magnitude ≤ 2047 * Nat.pow 2 52
  closest : ∀ k ≤ 2047 * Nat.pow 2 52, distance num den magnitude ≤ distance num den k
  even : ∀ k ≤ 2047 * Nat.pow 2 52, k ≠ magnitude → distance num den k = distance num den magnitude →
    magnitude % 2 = 0

/-- Fraction bits that carry into the exponent stand for the same value. -/
theorem units_add {e f : Nat} (h : e = 0 ∨ 2 ^ 52 ≤ f) (hf : f ≤ 2 ^ 53) :
    units (e * 2 ^ 52 + f) = f * 2 ^ e := by
  simp only [units, Nat.pow_eq]
  split
  · rename_i hlt
    have he : e = 0 := by omega
    simp [he]
  · rename_i hle
    rcases Nat.lt_or_eq_of_le hf with hlt | rfl
    · have hdiv : (e * 2 ^ 52 + f) / 2 ^ 52 - 1 = e := by omega
      have hmod : 2 ^ 52 + (e * 2 ^ 52 + f) % 2 ^ 52 = f := by omega
      rw [hdiv, hmod]
    · have hdiv : (e * 2 ^ 52 + 2 ^ 53) / 2 ^ 52 - 1 = e + 1 := by omega
      have hmod : 2 ^ 52 + (e * 2 ^ 52 + 2 ^ 53) % 2 ^ 52 = 2 ^ 52 := by omega
      rw [hdiv, hmod, Nat.pow_succ]
      omega

theorem exists_eq_add (m : Nat) :
    ∃ e f, (e = 0 ∨ 2 ^ 52 ≤ f) ∧ f < 2 ^ 53 ∧ m = e * 2 ^ 52 + f :=
  ⟨m / 2 ^ 52 - 1, m - (m / 2 ^ 52 - 1) * 2 ^ 52, by omega, by omega, by omega⟩

theorem units_strictMono : StrictMono units := by
  refine strictMono_nat_of_lt_succ fun m => ?_
  obtain ⟨e, f, he, hf, rfl⟩ := exists_eq_add m
  have hsucc : e = 0 ∨ 2 ^ 52 ≤ f + 1 := by omega
  rw [Nat.add_assoc, units_add hsucc hf, units_add he hf.le]
  exact Nat.mul_lt_mul_of_pos_right (Nat.lt_succ_self f) (Nat.two_pow_pos e)

theorem units_grid (s m : Nat) :
    (∃ j, units m = j * 2 ^ s) ∨ (s ≠ 0 ∧ units m < 2 ^ 52 * 2 ^ s) := by
  obtain ⟨e, f, he, hf, rfl⟩ := exists_eq_add m
  rw [units_add he hf.le]
  rcases Nat.lt_or_ge e s with hlt | hle
  · refine .inr ⟨by omega, ?_⟩
    have hpow : 2 * 2 ^ e ≤ 2 ^ s := by
      rw [← Nat.pow_succ']
      exact Nat.pow_le_pow_right (by decide) hlt
    have hf' : f * 2 ^ e < 2 ^ 53 * 2 ^ e := Nat.mul_lt_mul_of_pos_right hf (Nat.two_pow_pos e)
    omega
  · refine .inl ⟨f * 2 ^ (e - s), ?_⟩
    rw [Nat.mul_assoc, ← Nat.pow_add, Nat.sub_add_cancel hle]

theorem roundQuotient_cases (num den : Nat) :
    (2 * (num % den) < den ∧ roundQuotient num den = num / den) ∨
      (den < 2 * (num % den) ∧ roundQuotient num den = num / den + 1) ∨
      (2 * (num % den) = den ∧ roundQuotient num den = num / den + num / den % 2) := by
  simp only [roundQuotient]
  split
  · exact .inl ⟨by assumption, rfl⟩
  · split
    · exact .inr (.inl ⟨by assumption, rfl⟩)
    · exact .inr (.inr ⟨by omega, rfl⟩)

/-- The rounded quotient's multiple of `den` is closest to `num`, and even if another is as close. -/
theorem roundQuotient_closest (num : Nat) {den : Nat} (hden : 0 < den) (j : Nat) :
    gap (roundQuotient num den * den) num ≤ gap (j * den) num ∧
      (j ≠ roundQuotient num den → gap (j * den) num = gap (roundQuotient num den * den) num →
        roundQuotient num den % 2 = 0) := by
  have hnum : num / den * den + num % den = num := Nat.div_add_mod' num den
  have hmod : num % den < den := Nat.mod_lt num hden
  have hsucc : (num / den + 1) * den = num / den * den + den := Nat.succ_mul _ _
  -- Every multiple is on one side of the two between which `num` lies, or one of them.
  have hj : (j = num / den ∨ j = num / den + 1) ∨ j * den + den ≤ num / den * den ∨
      (num / den + 1) * den + den ≤ j * den := by
    rcases Nat.lt_or_ge j (num / den) with hlt | hge
    · refine .inr (.inl ?_)
      rw [← Nat.succ_mul]
      exact Nat.mul_le_mul_right den hlt
    · rcases Nat.lt_or_ge (num / den + 1) j with hlt | hle
      · refine .inr (.inr ?_)
        rw [← Nat.succ_mul]
        exact Nat.mul_le_mul_right den hlt
      · exact .inl (by omega)
  have heven : num / den % 2 = 0 ∨ num / den % 2 = 1 := Nat.mod_two_eq_zero_or_one _
  simp only [gap]
  rcases roundQuotient_cases num den with ⟨hr, hq⟩ | ⟨hr, hq⟩ | ⟨hr, hq⟩
  · rw [hq]
    rcases hj with (rfl | rfl) | hj | hj <;> omega
  · rw [hq]
    rcases hj with (rfl | rfl) | hj | hj <;> omega
  · rcases heven with heven | heven
    · rw [hq, heven, Nat.add_zero]
      rcases hj with (rfl | rfl) | hj | hj <;> omega
    · rw [hq, heven]
      rcases hj with (rfl | rfl) | hj | hj <;> omega

theorem roundQuotient_bounds (num den : Nat) :
    num / den ≤ roundQuotient num den ∧ roundQuotient num den ≤ num / den + 1 := by
  rcases roundQuotient_cases num den with ⟨_, hq⟩ | ⟨_, hq⟩ | ⟨_, hq⟩ <;> omega

def unbounded (scaled den : Nat) : Nat :=
  let shift := (scaled / den).log2 - 52
  shift * Nat.pow 2 52 + roundQuotient scaled (den * Nat.pow 2 shift)

theorem nearest_eq_min (num den : Nat) :
    nearest num den = min (unbounded (num * Nat.pow 2 1074) den) infinity := rfl

/-- The shift brings the quotient below `2 ^ 53`, and no further than need be. -/
theorem shift_spec (n : Nat) : (n.log2 - 52 = 0 ∨ 2 ^ 52 * 2 ^ (n.log2 - 52) ≤ n) ∧
    n < 2 ^ 53 * 2 ^ (n.log2 - 52) := by
  rw [← Nat.pow_add, ← Nat.pow_add]
  constructor
  · rcases Nat.lt_or_ge 52 n.log2 with hlt | hle
    · have hn : n ≠ 0 := by
        rintro rfl
        simp at hlt
      have hsum : 52 + (n.log2 - 52) = n.log2 := by omega
      rw [hsum]
      exact .inr (Nat.log2_self_le hn)
    · exact .inl (by omega)
  · have hle : n.log2 + 1 ≤ 53 + (n.log2 - 52) := by omega
    exact Nat.lt_of_lt_of_le Nat.lt_log2_self (Nat.pow_le_pow_right (by decide) hle)

theorem exists_unbounded_eq (scaled : Nat) {den : Nat} (hden : 0 < den) :
    ∃ s q, unbounded scaled den = s * 2 ^ 52 + q ∧ units (s * 2 ^ 52 + q) = q * 2 ^ s ∧
      q = roundQuotient scaled (den * 2 ^ s) ∧ (s = 0 ∨ 2 ^ 52 * 2 ^ s * den ≤ scaled) := by
  obtain ⟨hlow, hhigh⟩ := shift_spec (scaled / den)
  generalize hs : (scaled / den).log2 - 52 = s at hlow hhigh
  refine ⟨s, roundQuotient scaled (den * 2 ^ s), ?_, ?_, rfl, ?_⟩
  · rw [unbounded, hs]
    rfl
  · obtain ⟨hle, hge⟩ := roundQuotient_bounds scaled (den * 2 ^ s)
    rw [← Nat.div_div_eq_div_mul] at hle hge
    apply units_add
    · refine hlow.imp_right fun h => le_trans ?_ hle
      exact (Nat.le_div_iff_mul_le (Nat.two_pow_pos s)).mpr h
    · have hlt : scaled / den / 2 ^ s < 2 ^ 53 := (Nat.div_lt_iff_lt_mul (Nat.two_pow_pos s)).mpr hhigh
      exact le_trans hge hlt
  · exact hlow.imp_right (Nat.le_div_iff_mul_le hden).mp

theorem unbounded_closest (scaled : Nat) {den : Nat} (hden : 0 < den) (k : Nat) :
    gap (units (unbounded scaled den) * den) scaled ≤ gap (units k * den) scaled ∧
      (k ≠ unbounded scaled den →
        gap (units k * den) scaled = gap (units (unbounded scaled den) * den) scaled →
        unbounded scaled den % 2 = 0) := by
  obtain ⟨s, q, hm, hunits, hq, hlow⟩ := exists_unbounded_eq scaled hden
  have hpos : 0 < den * 2 ^ s := Nat.mul_pos hden (Nat.two_pow_pos s)
  have hgrid (j : Nat) : j * 2 ^ s * den = j * (den * 2 ^ s) := by
    rw [Nat.mul_assoc, Nat.mul_comm den]
  have hclosest (j : Nat) := roundQuotient_closest scaled hpos j
  rw [hm, hunits, hgrid]
  rw [← hq] at hclosest
  rcases units_grid s k with ⟨j, hj⟩ | ⟨hs, hbelow⟩
  · rw [hj, hgrid]
    refine ⟨(hclosest j).1, fun hne htie => ?_⟩
    have hjq : j ≠ q := by
      rintro rfl
      exact hne (units_strictMono.injective (hj.trans hunits.symm))
    have := (hclosest j).2 hjq htie
    omega
  · -- The least value with this exponent is on the grid, between the one of `k` and the fraction.
    have hleast := (hclosest (2 ^ 52)).1
    have hlt := Nat.mul_lt_mul_of_pos_right hbelow hden
    have hle := hlow.resolve_left hs
    rw [hgrid] at hlt hle
    have hfar : gap (2 ^ 52 * (den * 2 ^ s)) scaled < gap (units k * den) scaled := by
      simp only [gap]
      omega
    exact ⟨(hleast.trans_lt hfar).le, fun _ htie => absurd htie (hleast.trans_lt hfar).ne'⟩

theorem infinity_even : infinity % 2 = 0 := by decide

theorem nearest_isNearest (num : Nat) {den : Nat} (hden : 0 < den) :
    IsNearest num den (nearest num den) := by
  rw [nearest_eq_min]
  have hclosest := unbounded_closest (num * Nat.pow 2 1074) hden
  rcases Nat.lt_or_ge infinity (unbounded (num * Nat.pow 2 1074) den) with hlt | hle
  · rw [min_eq_right hlt.le]
    refine ⟨le_rfl, fun k hk => ?_, fun _ _ _ _ => infinity_even⟩
    have hinfinity := (hclosest infinity).1
    have hunits := Nat.mul_lt_mul_of_pos_right (units_strictMono hlt) hden
    have hk : k ≤ infinity := hk
    have hk' := Nat.mul_le_mul_right den (units_strictMono.monotone hk)
    simp only [distance]
    simp only [gap] at hinfinity ⊢
    omega
  · rw [min_eq_left hle]
    exact ⟨hle, fun k _ => (hclosest k).1, fun k _ hne htie => (hclosest k).2 hne htie⟩

/-- Two magnitudes that are both nearest would be neighbours, and only one of them even. -/
theorem IsNearest.unique {num den a b : Nat} (hden : 0 < den) (ha : IsNearest num den a)
    (hb : IsNearest num den b) : a = b := by
  have hle {a b : Nat} (ha : IsNearest num den a) (hb : IsNearest num den b) : b ≤ a := by
    by_contra hlt
    have hab : a < b := by omega
    have htie := le_antisymm (ha.closest b hb.bounded) (hb.closest a ha.bounded)
    have haeven := ha.even b hb.bounded hab.ne' htie.symm
    have hbeven := hb.even a ha.bounded hab.ne htie
    have hbetween : a + 1 < b := by omega
    have hnext := ha.closest (a + 1) (hbetween.le.trans hb.bounded)
    have hlow := Nat.mul_lt_mul_of_pos_right (units_strictMono (Nat.lt_add_one a)) hden
    have hhigh := Nat.mul_lt_mul_of_pos_right (units_strictMono hbetween) hden
    simp only [distance, gap] at htie hnext
    omega
  exact le_antisymm (hle hb ha) (hle ha hb)

section Bits

open Float.Model

theorem isNaNBits_eq_false {b : BitVec 64} (h : b.toNat ≤ infinity) :
    @UnpackedFloat.isNaNBits .binary64 b = false := by
  simp only [UnpackedFloat.isNaNBits, UnpackedFloat.unpackExponent_def, UnpackedFloat.unpackMantissa_def,
    decide_eq_false_iff_not, not_and, ne_eq, not_not]
  intro hones
  have hexponent : b.toNat >>> 52 % 2048 = 2047 := by simpa using congrArg BitVec.toNat hones
  have hbound : b.toNat ≤ 2047 * 2 ^ 52 := h
  have hfraction : b.toNat % 2 ^ 52 = 0 := by omega
  exact BitVec.eq_of_toNat_eq (by simpa using hfraction)

theorem infinity_lt : infinity < 2 ^ 63 := by decide

theorem toBits_ofMagnitude {m : Nat} (h : m ≤ infinity) : (ofMagnitude m).toBits.toNat = m := by
  have hbits : (UInt64.ofNat m).toBitVec.toNat = m :=
    UInt64.toNat_ofNat_of_lt' (h.trans_lt (infinity_lt.trans (by decide)))
  have hkept : UnpackedFloat.pack .binary64 (UnpackedFloat.unpack .binary64 (UInt64.ofNat m).toBitVec) =
      (UInt64.ofNat m).toBitVec := by
    rw [UnpackedFloat.pack_unpack, isNaNBits_eq_false (hbits.trans_le h)]
    exact if_neg Bool.false_ne_true
  exact (congrArg BitVec.toNat hkept).trans hbits

end Bits

end Lox.Number
