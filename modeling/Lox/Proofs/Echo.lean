import Mathlib
import Lox.Proofs.Acceptance
import Lox.Proofs.PrintedForm
import Lox.Proofs.Writing

/-!
Printing a literal.  What a program prints of a value can be put into a program again, between quotes if it
is a string, and prints as the same text; this needs that a number is finite, that a string has no quote,
and that changing the sign of a number that was read changes nothing but its sign.
-/

set_option autoImplicit false

namespace Lox

open Lexicon Syntax

namespace Number

section Sign

open Float.Model UnpackedFloat

theorem unpack_neg (s : Sign) (e : BitVec 11) (f : BitVec 52) :
    UnpackedFloat.unpack .binary64 (packComponents .binary64 (-s) e f) =
      (UnpackedFloat.unpack .binary64 (packComponents .binary64 s e f)).neg := by
  simp only [UnpackedFloat.unpack, unpackSign_packComponents, unpackExponent_packComponents,
    unpackMantissa_packComponents, Sign.ofBitVec_toBitVec]
  split
  · split <;> rfl
  · split
    · split <;> rfl
    · rfl

theorem isNaNBits_neg (s : Sign) (e : BitVec 11) (f : BitVec 52) :
    isNaNBits (packComponents .binary64 (-s) e f) = isNaNBits (packComponents .binary64 s e f) := by
  simp only [isNaNBits, unpackExponent_packComponents, unpackMantissa_packComponents]

theorem toNat_packComponents (s : Sign) (e : BitVec 11) (f : BitVec 52) :
    (packComponents .binary64 s e f).toNat = s.toBitVec.toNat * 2 ^ 63 + e.toNat * 2 ^ 52 + f.toNat := by
  have hs := congrArg BitVec.toNat (@unpackSign_packComponents .binary64 s e f)
  have he := congrArg BitVec.toNat (@unpackExponent_packComponents .binary64 s e f)
  have hf := congrArg BitVec.toNat (@unpackMantissa_packComponents .binary64 s e f)
  rw [unpackSign_def, BitVec.extractLsb'_toNat] at hs
  rw [unpackExponent_def, BitVec.extractLsb'_toNat] at he
  rw [unpackMantissa_def, BitVec.extractLsb'_toNat] at hf
  have hlt : (packComponents .binary64 s e f).toNat < 2 ^ 64 := (packComponents .binary64 s e f).isLt
  rw [← hs, ← he, ← hf]
  simp only [Nat.shiftRight_eq_div_pow] at *
  omega

theorem toNat_packComponents_neg {s : Sign} {e : BitVec 11} {f : BitVec 52}
    (h : (packComponents .binary64 s e f).toNat < 2 ^ 63) :
    (packComponents .binary64 (-s) e f).toNat = 2 ^ 63 + (packComponents .binary64 s e f).toNat := by
  rw [toNat_packComponents] at h
  rw [toNat_packComponents, toNat_packComponents]
  have hnegative : Sign.negative.toBitVec.toNat = 1 := rfl
  have hpositive : Sign.positive.toBitVec.toNat = 0 := rfl
  cases s with
  | positive =>
    have hneg : -Sign.positive = Sign.negative := rfl
    rw [hneg, hnegative, hpositive]
    omega
  | negative => omega

theorem toBits_neg_ofMagnitude {m : Nat} (h : m ≤ infinity) : (-ofMagnitude m).toBits.toNat = 2 ^ 63 + m := by
  have hm : m < 2 ^ 63 := h.trans_lt infinity_lt
  have hbits : (ofMagnitude m).toBits.toBitVec.toNat = m := toBits_ofMagnitude h
  obtain ⟨s, e, f, hparts⟩ : ∃ (s : Sign) (e : BitVec 11) (f : BitVec 52),
      packComponents .binary64 s e f = (ofMagnitude m).toBits.toBitVec :=
    ⟨_, _, _, @packComponents_unpackSign_unpackExponent_unpackMantissa .binary64 _⟩
  have hnan : isNaNBits (packComponents .binary64 (-s) e f) = false := by
    rw [isNaNBits_neg, hparts]
    exact isNaNBits_eq_false (hbits.trans_le h)
  -- Bits that stand for a number are kept when they are unpacked and packed again.
  have hneg : (-ofMagnitude m).toBits.toBitVec = packComponents .binary64 (-s) e f := by
    have hkept := @pack_unpack .binary64 (packComponents .binary64 (-s) e f)
    rw [hnan, if_neg Bool.false_ne_true, unpack_neg, hparts] at hkept
    exact hkept
  calc (-ofMagnitude m).toBits.toNat
      = (packComponents .binary64 (-s) e f).toNat := congrArg BitVec.toNat hneg
    _ = 2 ^ 63 + (packComponents .binary64 s e f).toNat :=
        toNat_packComponents_neg (by rw [hparts, hbits]; exact hm)
    _ = 2 ^ 63 + m := by rw [hparts, hbits]

theorem magnitude_lt_of_isFinite {x : Float} (h : x.isFinite = true) : magnitude x < infinity := by
  have hexponent : x.toBits.toBitVec.toNat >>> 52 % 2048 ≠ 2047 := by
    intro hones
    have hones : @unpackExponent .binary64 x.toBits.toBitVec = -1#11 := by
      rw [unpackExponent_def]
      exact BitVec.eq_of_toNat_eq (by simpa using hones)
    have hfinite : (UnpackedFloat.unpack .binary64 x.toBits.toBitVec).isFinite = true := h
    simp only [UnpackedFloat.unpack, hones, if_true] at hfinite
    split at hfinite <;> cases hfinite
  have hbits : x.toBits.toNat = x.toBits.toBitVec.toNat := rfl
  show x.toBits.toNat % 2 ^ 63 < 2047 * 2 ^ 52
  omega

end Sign

theorem text_of_finite {x : Float} (h : magnitude x < infinity) :
    text x = if isNegative x then "-" ++ text (ofMagnitude (magnitude x))
      else text (ofMagnitude (magnitude x)) := by
  rw [text_ofMagnitude h, text, if_neg (Nat.lt_asymm h), if_neg h.ne]

theorem text_neg_ofMagnitude {m : Nat} (h : m < infinity) :
    text (-ofMagnitude m) = "-" ++ text (ofMagnitude m) := by
  have hbits := toBits_neg_ofMagnitude h.le
  have hmagnitude : magnitude (-ofMagnitude m) = m := by
    rw [magnitude, hbits]
    exact (Nat.add_mod_left _ _).trans (Nat.mod_eq_of_lt (h.trans infinity_lt))
  have hnegative : isNegative (-ofMagnitude m) = true := by
    rw [isNegative, hbits, decide_eq_true_iff]
    exact Nat.le_add_right _ _
  rw [text_of_finite (hmagnitude.trans_lt h), hmagnitude, hnegative, if_pos rfl]

end Number

/-- The text is nothing but tokens, which spell the expression as a phrase of this sort. -/
structure Wording (p : Phrase) (text : String) (e : Expr) : Prop where
  tokens : ∀ s ∈ segments text.toList, ∃ kind lexeme, s = .token kind lexeme
  spells : Spells p (scan text).tokens.dropLast e

def minusSign : Token := ⟨.minus, "-", 1, none⟩

namespace Wording

variable {text : String} {p : Phrase} {e : Expr}

theorem of_lexeme {kind : Kind} {value : Option Value} (h : Lexeme text.toList kind value)
    (hspells : ∀ line, Spells p [⟨kind, text, line, value⟩] e) : Wording p text e := by
  obtain ⟨c, tail, htext, htakes⟩ := Segment.takes_lexeme h
  have hsegments : segments text.toList = [.token kind text.toList] := by
    have hall := segments_of_takes htakes
    rwa [← htext, segments_nil] at hall
  constructor
  · rw [hsegments]
    simp
  · simpa [scan, hsegments, Scan.ofSegments, Segment.literal?_of_lexeme h] using hspells _

theorem negate (h : Wording .unary text e) : Wording .unary ("-" ++ text) (.unary minusSign e) := by
  have hsegments : segments ("-" ++ text).toList = .token .minus ['-'] :: segments text.toList := by
    rw [String.toList_append]
    exact segments_of_takes (.sign rfl)
  have htokens : (scan ("-" ++ text)).tokens = minusSign :: (scan text).tokens := by
    rw [scan, hsegments]
    rfl
  have hne : (scan text).tokens ≠ [] := by
    obtain ⟨init, last, htext, _⟩ := exists_scan_eq text
    simp [htext]
  constructor
  · rw [hsegments]
    exact List.forall_mem_cons.mpr ⟨⟨_, _, rfl⟩, h.tokens⟩
  · rw [htokens, List.dropLast_cons_of_ne_nil hne]
    exact .unary (by decide) h.spells

theorem segments_print (h : Wording p text e) : segments ("print " ++ text ++ ";").toList =
    .token .kwPrint ['p', 'r', 'i', 'n', 't'] :: .blank ' ' ::
      (segments text.toList ++ [.token .semicolon [';']]) := by
  have hprint : segments "print".toList = [.token .kwPrint ['p', 'r', 'i', 'n', 't']] := by cbv
  have hstop : segments [';'] = [.token .semicolon [';']] := by cbv
  have hword : ∀ s ∈ segments "print".toList, s.EndsBefore ' ' := by
    rw [hprint]
    exact List.forall_mem_singleton.mpr trivial
  have hends : ∀ s ∈ segments text.toList, s.EndsBefore ';' := by
    intro s hs
    obtain ⟨kind, lexeme, rfl⟩ := h.tokens s hs
    trivial
  -- The blank ends the keyword, and the semicolon the last token of the expression.
  have hsplit : ("print " ++ text ++ ";").toList = "print".toList ++ ' ' :: (text.toList ++ [';']) := by
    simp
  rw [hsplit, segments_append_blank (by decide) _ _ hword, segments_append_stop (by decide) _ _ hends,
    hprint, hstop]
  rfl

/-- The source that prints an expression is scanned without fault, into the tokens of the expression
between those of the statement. -/
theorem scan_print (h : Wording p text e) :
    ∃ word stop last, word.kind = .kwPrint ∧ stop.kind = .semicolon ∧ scan ("print " ++ text ++ ";") =
      ⟨word :: (scan text).tokens.dropLast ++ [stop] ++ [.endOfSource last], []⟩ := by
  have herrors : (Scan.ofSegments 1 (segments text.toList)).errors = [] := by
    rw [Scan.errors_eq_nil_iff]
    intro s hs
    obtain ⟨kind, lexeme, rfl⟩ := h.tokens s hs
    rfl
  let word : Token := ⟨.kwPrint, "print", 1, none⟩
  let line := 1 + text.toList.count '\n'
  let stop : Token := ⟨.semicolon, ";", line, none⟩
  let rest := segments text.toList ++ [.token .semicolon [';']]
  have hlast : Scan.ofSegments line [.token .semicolon [';']] = ⟨[stop, .endOfSource line], []⟩ := rfl
  have hrest : Scan.ofSegments 1 rest = ⟨(scan text).tokens.dropLast ++ [stop, .endOfSource line], []⟩ := by
    rw [Scan.ofSegments_append, hlast, herrors]
    rfl
  have hall : scan ("print " ++ text ++ ";") =
      ⟨word :: (Scan.ofSegments 1 rest).tokens, (Scan.ofSegments 1 rest).errors⟩ := by
    rw [scan, h.segments_print]
    rfl
  refine ⟨word, stop, line, rfl, rfl, ?_⟩
  rw [hall, hrest]
  simp

theorem run_print (h : Wording .unary text e) (steps : Nat) :
    Session.run steps ("print " ++ text ++ ";") = Session.interpret steps [.print e] := by
  obtain ⟨word, stop, last, hword, hstop, hscan⟩ := h.scan_print
  obtain ⟨init, _, htokens, hinit⟩ := exists_scan_eq text
  have hspells : Spells .assignment (scan text).tokens.dropLast e :=
    .ofLogicOr (.ofLogicAnd (.ofEquality (.ofComparison (.ofTerm (.ofFactor (.ofUnary h.spells))))))
  have hderives : Declarations .nearest (word :: (scan text).tokens.dropLast ++ [stop]) [.print e] := by
    simpa using Declarations.statement (.print hword hspells hstop) .nil
  have hends : ∀ t ∈ word :: (scan text).tokens.dropLast ++ [stop], t.kind ≠ .eof := by
    simp only [htokens, List.dropLast_concat, List.mem_append, List.mem_cons, List.not_mem_nil, or_false]
    rintro t ((rfl | ht) | rfl)
    · simp [hword]
    · exact hinit t ht
    · simp [hstop]
  refine Session.run_of_faultless (by rw [hscan]) ?_ steps
  rw [hscan]
  exact (parse_iff_derives hends rfl _).mpr hderives

end Wording

/-- How a program writes the value: as it is printed, and between quotes if it is a string. -/
def Value.literal : Value → String
  | .string s => "\"" ++ s ++ "\""
  | v => v.text

/-- Numbers that are finite, and strings without a quote. -/
def Value.Writable : Value → Prop
  | .number x => x.isFinite = true
  | .string s => '"' ∉ s.toList
  | .nil | .boolean _ => True

instance : DecidablePred Value.Writable
  | .number x => inferInstanceAs (Decidable (x.isFinite = true))
  | .string s => inferInstanceAs (Decidable ('"' ∉ s.toList))
  | .nil => inferInstanceAs (Decidable True)
  | .boolean _ => inferInstanceAs (Decidable True)

/-- The literal of a value is read as an expression that evaluates, in whichever scope and store, to a value
with the same text. -/
theorem exists_wording {v : Value} (h : v.Writable) :
    ∃ e w, Wording .unary v.literal e ∧ (∀ scope, e.eval scope = pure w) ∧ w.text = v.text := by
  cases v with
  | nil =>
    refine ⟨.literal .nil, .nil, ?_, fun _ => rfl, rfl⟩
    exact .of_lexeme scanned_nil fun _ => .ofPrimary (.nothing rfl)
  | boolean b =>
    refine ⟨.literal (.boolean b), .boolean b, ?_, fun _ => rfl, rfl⟩
    cases b with
    | true => exact .of_lexeme (scanned_boolean true) fun _ => .ofPrimary (.truth rfl)
    | false => exact .of_lexeme (scanned_boolean false) fun _ => .ofPrimary (.falsity rfl)
  | number x =>
    let y := Number.ofMagnitude (Number.magnitude x)
    have hfinite := Number.magnitude_lt_of_isFinite h
    have htext := Number.text_of_finite hfinite
    have hwording : Wording .unary (Number.text y) (.literal (.number y)) :=
      .of_lexeme (Number.text_ofMagnitude_lexeme hfinite) fun line =>
        .ofPrimary (@Spells.literal ⟨.number, _, line, some (.number y)⟩ List.mem_cons_self)
    cases hsign : Number.isNegative x with
    | false =>
      rw [hsign, if_neg Bool.false_ne_true] at htext
      exact ⟨_, .number y, htext ▸ hwording, fun _ => rfl, htext.symm⟩
    | true =>
      -- No token has a sign: a negative number is read as the negation of its magnitude.
      rw [hsign, if_pos rfl, ← Number.text_neg_ofMagnitude hfinite] at htext
      refine ⟨.unary minusSign (.literal (.number y)), .number (-y), ?_, fun _ => rfl, htext.symm⟩
      have hnegate := hwording.negate
      rw [← Number.text_neg_ofMagnitude hfinite, ← htext] at hnegate
      exact hnegate
  | string s =>
    refine ⟨.literal (.string s), .string s, ?_, fun _ => rfl, rfl⟩
    have hlexeme : Lexeme ("\"" ++ s ++ "\"").toList .string (some (.string s)) := by
      have hquoteless : ∀ c ∈ s.toList, c ≠ '"' := fun c hc heq => h (heq ▸ hc)
      simpa using Lexeme.string hquoteless
    exact .of_lexeme hlexeme fun line =>
      .ofPrimary (@Spells.literal ⟨.string, _, line, some (.string s)⟩ (.tail _ (.head _)))

theorem Session.interpret_print {e : Expr} {w : Value} (heval : ∀ scope, e.eval scope = pure w) {s : Session}
    (hs : s.machine.out.room = none) (steps : Nat) : Session.interpret (steps + 1) [.print e] s =
      some (.ok (), { s with machine.out := ⟨s.machine.out.written ++ lines [w.text], none⟩ }) := by
  have hvalue : Exec.eval e s.machine = some (.ok w, s.machine) := by
    rw [Exec.eval, heval]
    rfl
  have hprint : Exec.print w s.machine =
      some (.ok (), { s.machine with out := ⟨s.machine.out.written ++ lines [w.text], none⟩ }) := by
    rw [Exec.print, Sink.writeLine_of_unlimited hs]
  have hall : Machine.executeAll (steps + 1) [.print e] = (do (Stmt.print e).exec (steps + 1); pure ()) := rfl
  simp only [Session.interpret, Machine.interpret, hall, Stmt.exec, Exec.bind_apply, hvalue, hprint]
  rfl

/-- Printing the literal of a value prints the value: the text of the value and a newline are put out, and
nothing else changes. -/
theorem printed_literal_echoed {s : Session} (hs : s.machine.out.room = none) {v : Value} (hv : v.Writable)
    (steps : Nat) : Session.run (steps + 1) ("print " ++ v.literal ++ ";") s =
      some (.ok (), { s with machine.out := ⟨s.machine.out.written ++ (v.text ++ "\n").toUTF8, none⟩ }) := by
  obtain ⟨e, w, hwording, heval, htext⟩ := exists_wording hv
  rw [hwording.run_print, Session.interpret_print heval hs, htext, lines_singleton]

theorem printed_literal_echoed_negative_zero :
    let s : Session := .start (.ofLimit none) (.ofLimit none)
    let zero : Value := .number (Float.ofBits 0x8000000000000000)
    let text : Value := .string "one\n// two;"
    s.machine.out.room = none ∧ zero.Writable ∧ text.Writable ∧
      Session.run 1 "print -0;" s = some (.ok (), { s with machine.out := ⟨"-0\n".toUTF8, none⟩ }) ∧
      Session.run 1 "print \"one\n// two;\";" s =
        some (.ok (), { s with machine.out := ⟨"one\n// two;\n".toUTF8, none⟩ }) := by
  intro s zero text
  -- A zero with a sign, and a string with a line end and what elsewhere begins a comment.
  have hs : s.machine.out.room = none := rfl
  have hzero : zero.Writable := by decide +kernel
  have htext : text.Writable := by decide +kernel
  have hshown : zero.text = "-0" := by decide +kernel
  have hliteral : zero.literal = "-0" := hshown
  have hechoed := printed_literal_echoed hs hzero 0
  rw [hliteral, hshown] at hechoed
  exact ⟨hs, hzero, htext, hechoed, printed_literal_echoed hs htext 0⟩

end Lox
