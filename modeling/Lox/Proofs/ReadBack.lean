import Mathlib
import Lox.Proofs.LongestMatch

/-!
Reading back.  A number that is neither negative nor infinite is written as a lexeme, and the value of that
lexeme is the number.  The magnitude that a decimal reads as depends only on the fraction it stands for, and
the decimal chosen for a magnitude stands for one that reads as it.
-/

set_option autoImplicit false

namespace Lox

open Lexicon

namespace Number

theorem gap_mul (a b k : Nat) : gap (a * k) (b * k) = gap a b * k := by
  rw [gap, gap, Nat.add_mul, Nat.sub_mul, Nat.sub_mul]

theorem distance_mul (num den k m : Nat) : distance (num * k) (den * k) m = distance num den m * k := by
  rw [distance, distance, ← gap_mul, Nat.mul_right_comm num, Nat.mul_assoc (units m)]

theorem isNearest_mul_iff {num den k m : Nat} (hk : 0 < k) :
    IsNearest (num * k) (den * k) m ↔ IsNearest num den m := by
  constructor
  · rintro ⟨hbounded, hclosest, heven⟩
    simp only [distance_mul] at hclosest heven
    exact ⟨hbounded, fun j hj => Nat.le_of_mul_le_mul_right (hclosest j hj) hk,
      fun j hj hne htie => heven j hj hne (congrArg (· * k) htie)⟩
  · rintro ⟨hbounded, hclosest, heven⟩
    refine ⟨hbounded, fun j hj => ?_, fun j hj hne htie => ?_⟩
    · rw [distance_mul, distance_mul]
      exact Nat.mul_le_mul_right k (hclosest j hj)
    · rw [distance_mul, distance_mul] at htie
      exact heven j hj hne (Nat.eq_of_mul_eq_mul_right hk htie)

theorem nearest_eq_of_ratio {a b c d : Nat} (hb : 0 < b) (hd : 0 < d) (h : a * d = c * b) :
    nearest a b = nearest c d := by
  have hleft := (isNearest_mul_iff hd).mpr (nearest_isNearest a hb)
  have hright := (isNearest_mul_iff hb).mpr (nearest_isNearest c hd)
  rw [h, Nat.mul_comm b d] at hleft
  exact hleft.unique (Nat.mul_pos hd hb) hright

theorem gap_eq_zero_iff {a b : Nat} : gap a b = 0 ↔ a = b := by
  rw [gap]
  omega

/-- A fraction that is the value of a magnitude has that one as its nearest. -/
theorem nearest_eq_of_units {num den m : Nat} (hden : 0 < den) (hm : m ≤ infinity)
    (h : units m * den = num * Nat.pow 2 1074) : nearest num den = m := by
  have hzero : distance num den m = 0 := gap_eq_zero_iff.mpr h
  refine (nearest_isNearest num hden).unique hden ⟨hm, fun k _ => ?_, fun k _ hne htie => ?_⟩
  · rw [hzero]
    exact Nat.zero_le _
  · have hk : units k * den = num * Nat.pow 2 1074 := gap_eq_zero_iff.mp (htie.trans hzero)
    have hunits : units k = units m := Nat.eq_of_mul_eq_mul_right hden (hk.trans h.symm)
    exact absurd (units_strictMono.injective hunits) hne

end Number

namespace Decimal

theorem denominator_pos (d : Decimal) : 0 < d.denominator := Nat.pow_pos (by decide)

def SameValue (d e : Decimal) : Prop := d.numerator * e.denominator = e.numerator * d.denominator

theorem SameValue.magnitude_eq {d e : Decimal} (h : d.SameValue e) : d.magnitude = e.magnitude :=
  Number.nearest_eq_of_ratio d.denominator_pos e.denominator_pos h

/-- A number of halves to the `n`th power is the decimal with `n` places that has five times as many digits
for each. -/
theorem fives_value (u n : Nat) :
    u * denominator ⟨u * Nat.pow 5 n, -n⟩ = numerator ⟨u * Nat.pow 5 n, -n⟩ * Nat.pow 2 n := by
  have hten : 10 ^ n = 5 ^ n * 2 ^ n := Nat.mul_pow 5 2 n
  simp [denominator, numerator, hten, mul_assoc]

theorem exact_magnitude {m : Nat} (h : m ≤ Number.infinity) : (exact m).magnitude = m := by
  have hexact : exact m = ⟨Number.units m * Nat.pow 5 1074, -(1074 : Nat)⟩ := rfl
  refine Number.nearest_eq_of_units (denominator_pos _) h ?_
  rw [hexact]
  apply fives_value

theorem zero_magnitude : Decimal.magnitude ⟨0, 0⟩ = 0 := by
  refine Number.nearest_eq_of_units (denominator_pos _) (Nat.zero_le _) ?_
  generalize Nat.pow 2 1074 = scale
  simp [numerator, Number.units]

theorem shortest_magnitude {m : Nat} (h : m ≤ Number.infinity) : (shortest m).magnitude = m := by
  have hfound {found : Option Decimal} (hd : ∀ d ∈ found, d.magnitude = m) :
      (found.getD (exact m)).magnitude = m := by
    cases found with
    | none => exact exact_magnitude h
    | some d => exact hd d rfl
  unfold shortest
  split
  · rename_i hzero
    rw [hzero, zero_magnitude]
  · refine hfound fun d hd => ?_
    obtain ⟨finer, _, hfind⟩ := List.exists_of_findSome?_eq_some hd
    simpa only [decide_eq_true_eq] using List.find?_some hfind

section Digits

theorem ofDigitChars_zeros_append (k : Nat) (cs : List Char) :
    Nat.ofDigitChars 10 (List.replicate k '0' ++ cs) 0 = Nat.ofDigitChars 10 cs 0 := by
  rw [Nat.ofDigitChars_append, Nat.ofDigitChars_replicate_zero]
  simp

theorem ofDigitChars_append_zeros (cs : List Char) (k : Nat) :
    Nat.ofDigitChars 10 (cs ++ List.replicate k '0') 0 = Nat.ofDigitChars 10 cs 0 * 10 ^ k := by
  rw [Nat.ofDigitChars_append, Nat.ofDigitChars_replicate_zero, Nat.mul_comm]

theorem digit_of_mem_toDigits {n : Nat} : ∀ c ∈ Nat.toDigits 10 n, Digit c :=
  fun _ hc => isDigit_iff.mp (Nat.isDigit_of_mem_toDigits (by decide) (by decide) hc)

theorem digit_of_mem_zeros {k : Nat} : ∀ c ∈ List.replicate k '0', Digit c := by
  intro c hc
  rw [List.eq_of_mem_replicate hc]
  exact ⟨le_rfl, by decide⟩

end Digits

theorem ofDigits_whole {d : Decimal} (h : 0 ≤ d.exponent) :
    SameValue (ofDigits (Nat.toDigits 10 d.digits ++ List.replicate d.exponent.toNat '0') []) d := by
  have hplaces : (-d.exponent).toNat = 0 := by omega
  simp [SameValue, ofDigits, numerator, denominator, ofDigitChars_append_zeros, hplaces,
    Nat.ofDigitChars_ten_toDigits]

/-- Zeros and digits, cut so that as many stand after the point as the exponent says. -/
theorem ofDigits_cut {d : Decimal} {padded : List Char} {zeros places : Nat}
    (hpadded : padded = List.replicate zeros '0' ++ Nat.toDigits 10 d.digits)
    (hexponent : d.exponent = -places) (hlength : places ≤ padded.length) :
    ofDigits (padded.take (padded.length - places)) (padded.drop (padded.length - places)) = d := by
  have hdigits : Nat.ofDigitChars 10 padded 0 = d.digits := by
    rw [hpadded, ofDigitChars_zeros_append, Nat.ofDigitChars_ten_toDigits]
  have hcount : (padded.drop (padded.length - places)).length = places := by
    rw [List.length_drop]
    omega
  rw [ofDigits, List.take_append_drop, hdigits, hcount, ← hexponent]

/-- The text of a decimal is a lexeme, of the value that the decimal reads as. -/
theorem text_lexeme (d : Decimal) :
    Lexeme d.text .number (some (.number (Number.ofMagnitude d.magnitude))) := by
  unfold text
  extract_lets shown places padded whole
  split
  · rename_i hplaces
    have hexponent : 0 ≤ d.exponent := by omega
    refine .whole (by simp [shown, Nat.toDigits_ne_nil]) ?_ (reads_iff.mpr ?_)
    · exact List.forall_mem_append.mpr ⟨digit_of_mem_toDigits, digit_of_mem_zeros⟩
    · rw [(ofDigits_whole hexponent).magnitude_eq]
  · rename_i hplaces
    have hexponent : d.exponent = -places := by omega
    have hlength : places + 1 ≤ padded.length := by
      simp only [padded, List.length_append, List.length_replicate]
      omega
    have hpadded : ∀ c ∈ padded, Digit c :=
      List.forall_mem_append.mpr ⟨digit_of_mem_zeros, digit_of_mem_toDigits⟩
    refine .fraction ?_ (fun c hc => hpadded c (List.mem_of_mem_take hc)) ?_
      (fun c hc => hpadded c (List.mem_of_mem_drop hc)) (reads_iff.mpr ?_)
    · rw [← List.length_pos_iff, List.length_take]
      omega
    · rw [← List.length_pos_iff, List.length_drop]
      omega
    · have hcut : ofDigits (padded.take whole) (padded.drop whole) = d :=
        ofDigits_cut rfl hexponent (Nat.le_of_succ_le hlength)
      rw [hcut]

end Decimal

namespace Number

theorem magnitude_ofMagnitude {m : Nat} (h : m ≤ infinity) : magnitude (ofMagnitude m) = m := by
  rw [magnitude, toBits_ofMagnitude h]
  exact Nat.mod_eq_of_lt (h.trans_lt infinity_lt)

theorem isNegative_ofMagnitude {m : Nat} (h : m ≤ infinity) : isNegative (ofMagnitude m) = false := by
  rw [isNegative, toBits_ofMagnitude h, decide_eq_false_iff_not, Nat.not_le]
  exact h.trans_lt infinity_lt

theorem isInf_ofMagnitude_infinity : (ofMagnitude infinity).isInf = true := by decide

theorem text_ofMagnitude {m : Nat} (h : m < infinity) :
    text (ofMagnitude m) = String.ofList (Decimal.shortest m).text := by
  rw [text, magnitude_ofMagnitude h.le, isNegative_ofMagnitude h.le, if_neg (Nat.lt_asymm h), if_neg h.ne]
  exact if_neg Bool.false_ne_true

theorem text_ofMagnitude_lexeme {m : Nat} (h : m < infinity) :
    Lexeme (text (ofMagnitude m)).toList .number (some (.number (ofMagnitude m))) := by
  have hlexeme := (Decimal.shortest m).text_lexeme
  rw [Decimal.shortest_magnitude h.le] at hlexeme
  rwa [text_ofMagnitude h, String.toList_ofList]

end Number

end Lox
