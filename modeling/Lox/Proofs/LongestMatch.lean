import Mathlib
import Lox.Proofs.Layout

/-!
Scanning splits a source as the lexical grammar says: at each place it takes the longest lexeme or comment
that stands there, and every character of the source is in exactly one segment.
-/

set_option autoImplicit false

namespace Lox

open Lexicon

section Characters

variable {c : Char}

theorem isDigit_iff : c.isDigit = true ↔ Digit c := by
  simp [Char.isDigit, Digit, Char.le_def]

theorem startsWord_iff : Segment.startsWord c = true ↔ Letter c := by
  simp [Segment.startsWord, Char.isAlpha, Char.isUpper, Char.isLower, Letter, Char.le_def, or_assoc]

theorem inWord_iff : Segment.inWord c = true ↔ Letter c ∨ Digit c := by
  rw [← startsWord_iff, ← isDigit_iff]
  simp only [Segment.inWord, Segment.startsWord, Char.isAlphanum, Bool.or_eq_true, decide_eq_true_eq]
  exact or_right_comm

theorem isDigit_of_letter (h : Letter c) : c.isDigit = false := by
  rw [Bool.eq_false_iff, ne_eq, isDigit_iff]
  rintro ⟨_, hle⟩
  rcases h with ⟨hA, _⟩ | ⟨ha, _⟩ | rfl
  · exact absurd (hA.trans hle) (by decide)
  · exact absurd (ha.trans hle) (by decide)
  · exact absurd hle (by decide)

end Characters

theorem length_le_takeWhile {p : Char → Bool} {ds cs : List Char} (h : ds <+: cs)
    (hp : ∀ c ∈ ds, p c = true) : ds.length ≤ (cs.takeWhile p).length := by
  obtain ⟨rest, rfl⟩ := h
  rw [List.takeWhile_append_of_pos hp, List.length_append]
  omega

theorem head?_ne_of_isPrefix {ds cs : List Char} {c : Char} (h : ds <+: cs) (hc : cs.head? ≠ some c) :
    ds.head? ≠ some c := by
  obtain ⟨rest, rfl⟩ := h
  cases ds with
  | nil => simp
  | cons d ds => simpa using hc

section Numbers

variable {whole fraction : List Char}

theorem takeWhile_isDigit (h : ∀ c ∈ whole, Digit c) : whole.takeWhile Char.isDigit = whole :=
  List.takeWhile_eq_self_iff.mpr fun c hc => isDigit_iff.mpr (h c hc)

theorem dropWhile_isDigit (h : ∀ c ∈ whole, Digit c) : whole.dropWhile Char.isDigit = [] :=
  List.dropWhile_eq_nil_iff.mpr fun c hc => isDigit_iff.mpr (h c hc)

theorem forall_mem_takeWhile_digit (cs : List Char) : ∀ c ∈ cs.takeWhile Char.isDigit, Digit c :=
  fun _ hc => isDigit_iff.mp (List.mem_takeWhile_imp hc)

theorem isDigit_point : Char.isDigit '.' = false := by decide

theorem reads_iff {x : Float} :
    Reads whole fraction x ↔ x = Number.ofMagnitude (Decimal.ofDigits whole fraction).magnitude := by
  have hpos : 0 < 10 ^ fraction.length := Nat.pow_pos (by decide)
  have hmagnitude : (Decimal.ofDigits whole fraction).magnitude =
      Number.nearest (Nat.ofDigitChars 10 (whole ++ fraction) 0) (10 ^ fraction.length) := by
    simp [Decimal.magnitude, Decimal.numerator, Decimal.denominator, Decimal.ofDigits]
  have hnearest := Number.nearest_isNearest (Nat.ofDigitChars 10 (whole ++ fraction) 0) hpos
  rw [hmagnitude]
  constructor
  · intro h
    rw [← h.unique hpos hnearest, Number.ofMagnitude, UInt64.ofNat_toNat, Float.ofBits_toBits]
  · rintro rfl
    rwa [Reads, Number.toBits_ofMagnitude (Number.nearest_le_infinity _ _)]

theorem read_whole (h : ∀ c ∈ whole, Digit c) :
    Number.read whole = Number.ofMagnitude (Decimal.ofDigits whole []).magnitude := by
  rw [Number.read, Decimal.read, takeWhile_isDigit h, dropWhile_isDigit h]
  rfl

theorem read_fraction (hw : ∀ c ∈ whole, Digit c) (fraction : List Char) :
    Number.read (whole ++ '.' :: fraction) =
      Number.ofMagnitude (Decimal.ofDigits whole fraction).magnitude := by
  rw [Number.read, Decimal.read, takeWhile_append_stop isDigit_point, takeWhile_isDigit hw,
    dropWhile_append_stop isDigit_point, dropWhile_isDigit hw]
  rfl

theorem splitNumber_whole (h : ∀ c ∈ whole, Digit c) : Segment.splitNumber whole = (whole, []) := by
  simp [Segment.splitNumber, takeWhile_isDigit h, dropWhile_isDigit h]

theorem splitNumber_fraction (hw : ∀ c ∈ whole, Digit c) (hne : fraction ≠ [])
    (hf : ∀ c ∈ fraction, Digit c) (more : List Char) :
    Segment.splitNumber (whole ++ '.' :: (fraction ++ more)) =
      (whole ++ '.' :: (fraction ++ more).takeWhile Char.isDigit,
        (fraction ++ more).dropWhile Char.isDigit) := by
  obtain ⟨d, tail, rfl⟩ := List.exists_cons_of_ne_nil hne
  have hd : d.isDigit = true := isDigit_iff.mpr (hf d List.mem_cons_self)
  simp [Segment.splitNumber, takeWhile_append_stop isDigit_point, takeWhile_isDigit hw,
    dropWhile_append_stop isDigit_point, dropWhile_isDigit hw, hd]

end Numbers

theorem literal?_eq_none {kind : Kind} (hstring : kind ≠ .string) (hnumber : kind ≠ .number)
    (lexeme : List Char) : kind.literal? lexeme = none := by
  unfold Kind.literal?
  split
  · exact absurd rfl hstring
  · exact absurd rfl hnumber
  · rfl

theorem literal?_string (body : List Char) :
    Kind.literal? .string ('"' :: body ++ ['"']) = some (.string (String.ofList body)) := by
  simp [Kind.literal?]

theorem keyword?_of_mem : ∀ kw ∈ keywords, Kind.keyword? (String.ofList kw.1) = some kw.2 := by decide

theorem mem_keywords {text : String} {kind : Kind} (h : Kind.keyword? text = some kind) :
    (text.toList, kind) ∈ keywords := by
  unfold Kind.keyword? at h
  split at h <;> cases h <;> decide

theorem keyword?_eq_some_iff {cs : List Char} {kind : Kind} :
    Kind.keyword? (String.ofList cs) = some kind ↔ (cs, kind) ∈ keywords := by
  refine ⟨fun h => ?_, keyword?_of_mem (cs, kind)⟩
  simpa using mem_keywords h

theorem keyword?_eq_none_iff {cs : List Char} :
    Kind.keyword? (String.ofList cs) = none ↔ ∀ kind, (cs, kind) ∉ keywords := by
  simp only [Option.eq_none_iff_forall_ne_some, ne_eq, keyword?_eq_some_iff]

namespace Segment

def isLexical : Segment → Bool
  | .token _ _ | .comment _ => true
  | _ => false

variable {c : Char} {cs ds tail rest left lexeme : List Char} {s t : Segment} {kind : Kind}
  {value : Option Value}

theorem Takes.unique (h : Takes c cs s rest) (h' : Takes c cs t left) : s = t ∧ rest = left := by
  have heq := h.next_eq.symm.trans h'.next_eq
  simpa using heq

theorem Takes.chars_append (h : Takes c cs s rest) : s.chars ++ rest = c :: cs := by
  have hnext := chars_next c cs
  rwa [h.next_eq] at hnext

theorem next_of_mem : ∀ op ∈ operators ++ keywords,
    op.1.head?.map (next · op.1.tail) = some (.token op.2 op.1, []) ∧ op.2 ≠ .string ∧
      op.2 ≠ .number := by
  decide

theorem takes_of_mem (h : (lexeme, kind) ∈ operators ++ keywords) :
    ∃ c tail, lexeme = c :: tail ∧ Takes c tail (.token kind lexeme) [] := by
  obtain ⟨hnext, _⟩ := next_of_mem (lexeme, kind) h
  cases lexeme with
  | nil => cases hnext
  | cons c tail =>
    have hnext : next c tail = (.token kind (c :: tail), []) := by simpa using hnext
    refine ⟨c, tail, rfl, ?_⟩
    simpa [hnext] using next_takes c tail

theorem takes_number (h : splitNumber lexeme = (lexeme, [])) (hne : lexeme ≠ [])
    (hdigit : ∀ c ∈ lexeme.head?, c.isDigit = true) :
    ∃ c tail, lexeme = c :: tail ∧ Takes c tail (.token .number lexeme) [] := by
  obtain ⟨c, tail, rfl⟩ := List.exists_cons_of_ne_nil hne
  refine ⟨c, tail, rfl, ?_⟩
  have htakes := @Takes.number c tail (hdigit c rfl)
  rwa [h] at htakes

theorem takes_word (h : Word lexeme) :
    ∃ c tail, lexeme = c :: tail ∧ Takes c tail (.token (wordKind lexeme) lexeme) [] := by
  obtain @⟨c, tail, hc, htail⟩ := h
  have hword : startsWord c = true := startsWord_iff.mpr hc
  have hdigit : c.isDigit = false := isDigit_of_letter hc
  have hp : ∀ d ∈ tail, inWord d = true := fun d hd => inWord_iff.mpr (htail d hd)
  have htakes := @Takes.word c tail hdigit hword
  rw [List.takeWhile_eq_self_iff.mpr hp, List.dropWhile_eq_nil_iff.mpr hp] at htakes
  exact ⟨c, tail, rfl, htakes⟩

/-- A lexeme alone is scanned as the token it is. -/
theorem takes_lexeme (h : Lexeme lexeme kind value) :
    ∃ c tail, lexeme = c :: tail ∧ Takes c tail (.token kind lexeme) [] := by
  cases h with
  | operator hmem => exact takes_of_mem (List.mem_append_left _ hmem)
  | @string body hbody => exact ⟨'"', _, rfl, .string (closeString?_of_quoteless hbody [])⟩
  | whole hne hdigits _ =>
    refine takes_number (splitNumber_whole hdigits) hne fun c hc => ?_
    exact isDigit_iff.mpr (hdigits c (List.mem_of_mem_head? hc))
  | @fraction whole fraction _ hwne hw hfne hf _ =>
    have hsplit := splitNumber_fraction hw hfne hf []
    rw [List.append_nil, takeWhile_isDigit hf, dropWhile_isDigit hf] at hsplit
    refine takes_number hsplit (by simp) fun c hc => ?_
    rw [List.head?_append_of_ne_nil _ hwne] at hc
    exact isDigit_iff.mpr (hw c (List.mem_of_mem_head? hc))
  | keyword hmem => exact takes_of_mem (List.mem_append_right _ hmem)
  | identifier hword hnone => simpa [wordKind, keyword?_eq_none_iff.mpr hnone] using takes_word hword

theorem literal?_of_mem (h : (lexeme, kind) ∈ operators ++ keywords) : kind.literal? lexeme = none := by
  obtain ⟨_, hstring, hnumber⟩ := next_of_mem _ h
  exact literal?_eq_none hstring hnumber lexeme

theorem literal?_of_lexeme (h : Lexeme lexeme kind value) : kind.literal? lexeme = value := by
  cases h with
  | operator hmem => exact literal?_of_mem (List.mem_append_left _ hmem)
  | string _ => exact literal?_string _
  | whole _ hdigits hreads => rw [Kind.literal?, read_whole hdigits, reads_iff.mp hreads]
  | fraction _ hw _ _ hreads => rw [Kind.literal?, read_fraction hw, reads_iff.mp hreads]
  | keyword hmem => exact literal?_of_mem (List.mem_append_right _ hmem)
  | identifier _ _ => rfl

/-- The kind and the value of a token follow from its lexeme. -/
theorem lexeme_unique {kind' : Kind} {value' : Option Value} (h : Lexeme lexeme kind value)
    (h' : Lexeme lexeme kind' value') : kind' = kind ∧ value' = value := by
  obtain ⟨c, tail, rfl, htakes⟩ := takes_lexeme h
  obtain ⟨_, _, heq, htakes'⟩ := takes_lexeme h'
  cases heq
  obtain ⟨hseg, _⟩ := htakes.unique htakes'
  cases hseg
  exact ⟨rfl, (literal?_of_lexeme h').symm.trans (literal?_of_lexeme h)⟩

theorem takes_comment (h : Comment ds) :
    ∃ c tail, ds = c :: tail ∧ Takes c tail (.comment ds) [] := by
  obtain @⟨body, hbody⟩ := h
  have hp : ∀ c ∈ '/' :: body, decide (c ≠ '\n') = true := by simpa using hbody
  have htakes := @Takes.comment ('/' :: body) rfl
  rw [List.takeWhile_eq_self_iff.mpr hp, List.dropWhile_eq_nil_iff.mpr hp] at htakes
  exact ⟨'/', _, rfl, htakes⟩

theorem takes_lexical (h : Lexical ds) :
    ∃ c tail s, ds = c :: tail ∧ s.isLexical = true ∧ Takes c tail s [] := by
  rcases h with ⟨kind, value, hlexeme⟩ | hcomment
  · obtain ⟨c, tail, heq, htakes⟩ := takes_lexeme hlexeme
    exact ⟨c, tail, _, heq, rfl, htakes⟩
  · obtain ⟨c, tail, heq, htakes⟩ := takes_comment hcomment
    exact ⟨c, tail, _, heq, rfl, htakes⟩

theorem mem_operators_of_sign? (h : sign? c = some kind) : ([c], kind) ∈ operators := by
  unfold sign? at h
  split at h <;> cases h <;> decide

theorem mem_operators_of_comparison? {alone withEqual : Kind}
    (h : comparison? c = some (alone, withEqual)) :
    ([c], alone) ∈ operators ∧ ([c, '='], withEqual) ∈ operators := by
  unfold comparison? at h
  split at h <;> cases h <;> decide

theorem lexeme_number (h : c.isDigit = true) (cs : List Char) :
    Lexeme (splitNumber (c :: cs)).1 .number (Kind.literal? .number (splitNumber (c :: cs)).1) := by
  have hne (ds : List Char) {d : Char} (hd : d.isDigit = true) : (d :: ds).takeWhile Char.isDigit ≠ [] := by
    simp [hd]
  rcases splitNumber_lexeme_cases (c :: cs) with heq | ⟨d, more, hd, heq⟩
  · rw [heq, Kind.literal?, read_whole (forall_mem_takeWhile_digit _)]
    exact .whole (hne cs h) (forall_mem_takeWhile_digit _) (reads_iff.mpr rfl)
  · have hfraction : d :: more.takeWhile Char.isDigit = (d :: more).takeWhile Char.isDigit :=
      (List.takeWhile_cons_of_pos hd).symm
    rw [heq, hfraction, Kind.literal?, read_fraction (forall_mem_takeWhile_digit _)]
    exact .fraction (hne cs h) (forall_mem_takeWhile_digit _) (hne more hd)
      (forall_mem_takeWhile_digit _) (reads_iff.mpr rfl)

theorem lexeme_word (h : startsWord c = true) (cs : List Char) :
    Lexeme (c :: cs.takeWhile inWord) (wordKind (c :: cs.takeWhile inWord))
      (Kind.literal? (wordKind (c :: cs.takeWhile inWord)) (c :: cs.takeWhile inWord)) := by
  have hword : Word (c :: cs.takeWhile inWord) :=
    .letters (startsWord_iff.mp h) fun d hd => inWord_iff.mp (List.mem_takeWhile_imp hd)
  unfold wordKind
  cases hkind : Kind.keyword? (String.ofList (c :: cs.takeWhile inWord)) with
  | none => exact .identifier hword (keyword?_eq_none_iff.mp hkind)
  | some kind =>
    have hmem := keyword?_eq_some_iff.mp hkind
    rw [Option.getD_some, literal?_of_mem (List.mem_append_right _ hmem)]
    exact .keyword hmem

theorem Takes.isLexeme (h : Takes c cs (.token kind lexeme) rest) :
    Lexeme lexeme kind (kind.literal? lexeme) := by
  have hoperator (hmem : (lexeme, kind) ∈ operators) : Lexeme lexeme kind (kind.literal? lexeme) := by
    rw [literal?_of_mem (List.mem_append_left _ hmem)]
    exact .operator hmem
  cases h with
  | slash _ => exact hoperator (by decide)
  | string hclose =>
    rw [literal?_string]
    exact .string (quoteless_of_closeString? hclose)
  | number hdigit => exact lexeme_number hdigit cs
  | word _ hword => exact lexeme_word hword cs
  | sign hsign => exact hoperator (mem_operators_of_sign? hsign)
  | alone hkinds _ => exact hoperator (mem_operators_of_comparison? hkinds).1
  | withEqual hkinds => exact hoperator (mem_operators_of_comparison? hkinds).2

theorem Takes.isComment {body : List Char} (h : Takes c cs (.comment body) rest) : Comment body := by
  cases h with
  | comment hd =>
    cases cs with
    | nil => cases hd
    | cons d cs =>
      cases hd
      rw [List.takeWhile_cons_of_pos (by decide)]
      exact .line fun e he => by simpa using List.mem_takeWhile_imp he

theorem Takes.lexical (h : Takes c cs s rest) (hs : s.isLexical = true) : Lexical s.chars := by
  cases s with
  | token kind lexeme => exact .inl ⟨kind, _, h.isLexeme⟩
  | comment body => exact .inr h.isComment
  | _ => cases hs

theorem length_takeWhile_le_splitNumber (cs : List Char) :
    (cs.takeWhile Char.isDigit).length ≤ (splitNumber cs).1.length := by
  rcases splitNumber_lexeme_cases cs with heq | ⟨d, more, _, heq⟩
  · rw [heq]
  · rw [heq, List.length_append]
    omega

theorem splitNumber_longest (h : (splitNumber ds).2 = []) (hfront : ds <+: cs) :
    ds.length ≤ (splitNumber cs).1.length := by
  have hself : (splitNumber ds).1 = ds := by simpa [h] using splitNumber_append ds
  rcases splitNumber_lexeme_cases ds with heq | ⟨d, more, hd, heq⟩
  · have hall : ∀ c ∈ ds, c.isDigit = true := List.takeWhile_eq_self_iff.mp (heq.symm.trans hself)
    exact (length_le_takeWhile hfront hall).trans (length_takeWhile_le_splitNumber cs)
  · have hfraction : ∀ e ∈ d :: more.takeWhile Char.isDigit, Digit e :=
      List.forall_mem_cons.mpr ⟨isDigit_iff.mp hd, forall_mem_takeWhile_digit more⟩
    have hlength := congrArg List.length (hself.symm.trans heq)
    obtain ⟨after, rfl⟩ := hfront
    have hsource : ds ++ after = ds.takeWhile Char.isDigit ++
        '.' :: (d :: more.takeWhile Char.isDigit ++ after) := by
      rw [← List.cons_append, ← List.append_assoc, ← heq, hself]
    have hsplit := splitNumber_fraction (forall_mem_takeWhile_digit ds) (List.cons_ne_nil _ _) hfraction after
    have hlonger := length_le_takeWhile (p := Char.isDigit) (List.prefix_append _ after) fun e he =>
      isDigit_iff.mpr (hfraction e he)
    rw [hsource, hsplit]
    simp only [List.length_append, List.length_cons] at hlength hlonger ⊢
    omega

/-- A lexeme or comment that is the front of a source is no longer than the segment there. -/
theorem Takes.longest (h : Takes c cs s rest) (ht : Takes c tail t []) (hlexical : t.isLexical = true)
    (hfront : tail <+: cs) : (c :: tail).length ≤ s.chars.length := by
  -- Where the case of `cs` is that of `tail`, what it leaves of `tail` is nothing.
  have hnone {u : Segment} {left : List Char} (hu : Takes c tail u left) : left = [] :=
    (hu.unique ht).2
  cases h with
  | blank hc => simp [hnone (.blank hc), chars]
  | comment hd =>
    cases tail with
    | nil => simp [chars]
    | cons d tail =>
      have hd' : (d :: tail).head? = some '/' := by
        obtain ⟨after, rfl⟩ := hfront
        exact hd
      have hall := List.dropWhile_eq_nil_iff.mp (hnone (.comment hd'))
      exact Nat.succ_le_succ (length_le_takeWhile hfront hall)
  | slash hd => simp [hnone (.slash (head?_ne_of_isPrefix hfront hd)), chars]
  | string hclose =>
    cases hclose' : closeString? tail with
    | none =>
      obtain ⟨rfl, _⟩ := ht.unique (.unclosed hclose')
      cases hlexical
    | some split =>
      obtain ⟨body, left⟩ := split
      have hleft := hnone (.string hclose')
      obtain ⟨after, rfl⟩ := hfront
      rw [closeString?_append_some hclose' after] at hclose
      cases hclose
      simp [← closeString?_append hclose', hleft, chars]
  | unclosed hclose => simpa [chars] using hfront.length_le
  | number hdigit =>
    exact splitNumber_longest (hnone (.number hdigit)) (List.cons_prefix_cons.mpr ⟨rfl, hfront⟩)
  | word hdigit hword =>
    have hall := List.dropWhile_eq_nil_iff.mp (hnone (.word hdigit hword))
    exact Nat.succ_le_succ (length_le_takeWhile hfront hall)
  | sign hsign => simp [hnone (.sign hsign), chars]
  | alone hkinds hd => simp [hnone (.alone hkinds (head?_ne_of_isPrefix hfront hd)), chars]
  | withEqual hkinds =>
    cases tail with
    | nil => simp [chars]
    | cons d tail =>
      obtain ⟨rfl, _⟩ := List.cons_prefix_cons.mp hfront
      simp [hnone (.withEqual hkinds), chars]
  | stray hc => simp [hnone (.stray hc), chars]

theorem Takes.stands_alone (h : Takes c cs s rest) (hs : s.isLexical = true) :
    ∃ tail, s.chars = c :: tail ∧ Takes c tail s [] := by
  cases s with
  | token kind lexeme => exact h.lexeme_alone
  | comment body =>
    obtain ⟨d, tail, hbody, htakes⟩ := takes_comment h.isComment
    cases h
    cases hbody
    exact ⟨_, rfl, htakes⟩
  | _ => cases hs

theorem Takes.isLexical_of_front (h : Takes c cs s rest) (ht : Takes c tail t [])
    (hlexical : t.isLexical = true) (hfront : tail <+: cs) : s.isLexical = true := by
  -- The other cases of `cs` are the same cases of `tail`.
  have hother {u : Segment} {left : List Char} (hu : Takes c tail u left) (hno : u.isLexical = false) :
      False := by
    rw [(hu.unique ht).1, hlexical] at hno
    cases hno
  cases h with
  | blank hc => exact (hother (.blank hc) rfl).elim
  | stray hc => exact (hother (.stray hc) rfl).elim
  | unclosed hclose =>
    cases hclose' : closeString? tail with
    | none => exact (hother (.unclosed hclose') rfl).elim
    | some split =>
      obtain ⟨after, rfl⟩ := hfront
      rw [closeString?_append_some hclose' after] at hclose
      cases hclose
  | _ => rfl

/-- The longest lexeme or comment at the front of a source is the segment there. -/
theorem takes_of_longest (ht : Takes c tail t []) (hlexical : t.isLexical = true)
    (hlongest : Longest (c :: tail) rest) : Takes c (tail ++ rest) t rest := by
  obtain ⟨s, left, hnext⟩ : ∃ s left, Takes c (tail ++ rest) s left := ⟨_, _, next_takes c _⟩
  have hfront := List.prefix_append tail rest
  have hs := hnext.isLexical_of_front ht hlexical hfront
  have happend : s.chars ++ left = (c :: tail) ++ rest := hnext.chars_append
  have hle : s.chars.length ≤ (c :: tail).length :=
    hlongest s.chars (happend ▸ List.prefix_append s.chars left) (hnext.lexical hs)
  have hge : (c :: tail).length ≤ s.chars.length := hnext.longest ht hlexical hfront
  obtain ⟨hchars, rfl⟩ := List.append_inj happend (hle.antisymm hge)
  obtain ⟨tail', htail, halone⟩ := hnext.stands_alone hs
  cases hchars.symm.trans htail
  obtain ⟨rfl, _⟩ := halone.unique ht
  exact hnext

theorem closeString?_eq_none_iff : closeString? cs = none ↔ ∀ c ∈ cs, c ≠ '"' := by
  unfold closeString?
  split
  · rename_i hd
    simpa using hd
  · rename_i hd
    have hne : cs.dropWhile (· ≠ '"') ≠ [] := hd ▸ List.cons_ne_nil _ _
    simpa using hne

theorem eq_nil_of_splits {segs : List Segment} (h : Splits cs segs) (hcs : cs = []) : segs = [] := by
  cases h with
  | nil => rfl
  | token hlexeme _ _ =>
    obtain ⟨c, tail, rfl, _⟩ := takes_lexeme hlexeme
    cases hcs
  | comment hcomment _ _ =>
    cases hcomment
    cases hcs
  | _ => cases hcs

theorem stray_begins_nothing (hc : isStray c = true) :
    c ∉ blanks ∧ c ≠ '"' ∧ ∀ ds, ¬Lexical (c :: ds) := by
  refine ⟨?_, ne_of_holds hc (by decide), ?_⟩
  · rw [mem_blanks_iff]
    intro hblank
    have htakes : Takes c [] (.blank c) [] := .blank hblank
    cases (htakes.unique (.stray hc)).1
  · intro ds hds
    obtain ⟨d, tail, t, heq, hlexical, htakes⟩ := takes_lexical hds
    cases heq
    obtain ⟨rfl, _⟩ := htakes.unique (.stray hc)
    cases hlexical

theorem Takes.splits {segs : List Segment} (h : Takes c cs s rest) (hrest : Splits rest segs) :
    Splits (c :: cs) (s :: segs) := by
  have hlongest (hs : s.isLexical = true) : Longest s.chars rest := by
    intro ds hfront hds
    rw [h.chars_append] at hfront
    obtain ⟨d, tail, t, rfl, hlexical, htakes⟩ := takes_lexical hds
    obtain ⟨rfl, htail⟩ := List.cons_prefix_cons.mp hfront
    exact h.longest htakes hlexical htail
  cases s with
  | token kind lexeme => exact h.chars_append ▸ .token h.isLexeme (hlongest rfl) hrest
  | comment body => exact h.chars_append ▸ .comment h.isComment (hlongest rfl) hrest
  | blank d =>
    cases h with
    | blank hc => exact .blank (mem_blanks_iff.mpr hc) hrest
  | stray d =>
    cases h with
    | stray hc =>
      obtain ⟨hblank, hquote, hnone⟩ := stray_begins_nothing hc
      exact .stray hblank hquote hnone hrest
  | unclosed body =>
    cases h with
    | unclosed hclose =>
      rw [eq_nil_of_splits hrest rfl]
      exact .unclosed (closeString?_eq_none_iff.mp hclose)

end Segment

theorem splits_segments (cs : List Char) : Splits cs (segments cs) := by
  fun_induction segments cs with
  | case1 => exact .nil
  | case2 c cs ih => exact (Segment.next_takes c cs).splits ih

/-- A source splits in one way only. -/
theorem eq_segments_of_splits {cs : List Char} {segs : List Segment} (h : Splits cs segs) :
    segs = segments cs := by
  induction h with
  | nil => exact segments_nil.symm
  | blank hc _ ih => rw [ih, segments_of_takes (.blank (mem_blanks_iff.mp hc))]
  | token hlexeme hlongest _ ih =>
    obtain ⟨c, tail, rfl, htakes⟩ := Segment.takes_lexeme hlexeme
    rw [ih, List.cons_append, segments_of_takes (Segment.takes_of_longest htakes rfl hlongest)]
  | comment hcomment hlongest _ ih =>
    obtain ⟨c, tail, rfl, htakes⟩ := Segment.takes_comment hcomment
    rw [ih, List.cons_append, segments_of_takes (Segment.takes_of_longest htakes rfl hlongest)]
  | @stray c rest segs hblank hquote hnone _ ih =>
    obtain ⟨s, left, hnext⟩ : ∃ s left, Segment.Takes c rest s left :=
      ⟨_, _, Segment.next_takes c rest⟩
    have hs : s.isLexical = false := by
      by_contra hs
      have hs : s.isLexical = true := by simpa using hs
      obtain ⟨tail, hchars, _⟩ := hnext.stands_alone hs
      exact hnone tail (hchars ▸ hnext.lexical hs)
    cases hnext with
    | blank hc => exact absurd (mem_blanks_iff.mpr hc) hblank
    | unclosed _ => exact absurd rfl hquote
    | stray hc => rw [ih, segments_of_takes (.stray hc)]
    | _ => cases hs
  | unclosed hbody =>
    rw [segments_of_takes (.unclosed (Segment.closeString?_eq_none_iff.mpr hbody)), segments_nil]

example : (segments "1.2.3!==8.".toList).map (String.ofList ·.chars) =
    ["1.2", ".", "3", "!=", "=", "8", "."] := by cbv

theorem Scan.messages_eq (line : Nat) (segs : List Segment) :
    (Scan.ofSegments line segs).errors.map (·.problem.message) = segs.filterMap complaint? := by
  induction segs generalizing line with
  | nil => rfl
  | cons s rest ih =>
    cases s with
    | stray c => exact congrArg (List.cons _) (ih _)
    | unclosed body => exact congrArg (List.cons _) (ih _)
    | _ => exact ih _

theorem Scan.exists_tokens_map (line : Nat) (segs : List Segment) :
    ∃ init last, (Scan.ofSegments line segs).tokens = init ++ [.endOfSource last] ∧
      init.map (fun t => (t.kind, t.lexeme.toList)) = segs.filterMap Segment.token? ∧
      ∀ t ∈ init, t.literal = t.kind.literal? t.lexeme.toList := by
  induction segs generalizing line with
  | nil => exact ⟨[], line, rfl, rfl, List.forall_mem_nil _⟩
  | cons s rest ih =>
    obtain ⟨init, last, htokens, hmap, hliteral⟩ := ih (line + s.newlines)
    cases s with
    | token kind lexeme =>
      simp only [Scan.ofSegments, htokens]
      refine ⟨_ :: init, last, rfl, ?_, List.forall_mem_cons.mpr ⟨?_, hliteral⟩⟩
      · simp [hmap, Segment.token?]
      · simp
    | _ => exact ⟨init, last, htokens, hmap, hliteral⟩

/-- Every source splits in exactly one way into blanks, lexemes and comments that are each the longest
where they stand, stray characters and a string without end.  The tokens are the lexemes in their order,
of a kind and a value that follow from the lexeme alone, and there is one error for each segment that is
no part of a program. -/
theorem scan_longest_match (source : String) :
    ∃ segs, Splits source.toList segs ∧ (∀ other, Splits source.toList other → other = segs) ∧
      segs.flatMap Segment.chars = source.toList ∧
      (∃ init last, (scan source).tokens = init ++ [.endOfSource last] ∧
        init.map (fun t => (t.kind, t.lexeme.toList)) = segs.filterMap Segment.token? ∧
        ∀ t ∈ init, Lexeme t.lexeme.toList t.kind t.literal ∧
          ∀ kind value, Lexeme t.lexeme.toList kind value → kind = t.kind ∧ value = t.literal) ∧
      (scan source).errors.map (·.problem.message) = segs.filterMap complaint? := by
  obtain ⟨init, last, htokens, hmap, hliteral⟩ := Scan.exists_tokens_map 1 (segments source.toList)
  have hlexeme : ∀ t ∈ init, Lexeme t.lexeme.toList t.kind t.literal := by
    intro t ht
    have hmem : (t.kind, t.lexeme.toList) ∈ (segments source.toList).filterMap Segment.token? :=
      hmap ▸ List.mem_map_of_mem ht
    obtain ⟨s, hs, htoken⟩ := List.mem_filterMap.mp hmem
    cases s <;> cases htoken
    obtain ⟨c, cs, rest, htakes⟩ := exists_takes_of_mem hs
    rw [hliteral t ht]
    exact htakes.isLexeme
  refine ⟨segments source.toList, splits_segments _, fun _ => eq_segments_of_splits,
    flatMap_chars_segments _, ⟨init, last, htokens, hmap, ?_⟩, Scan.messages_eq 1 _⟩
  intro t ht
  exact ⟨hlexeme t ht, fun _ _ => Segment.lexeme_unique (hlexeme t ht)⟩

end Lox
