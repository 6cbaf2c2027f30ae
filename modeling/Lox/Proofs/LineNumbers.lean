import Mathlib
import Lox.Proofs.LongestMatch

/-!
Line numbers.  While segments are scanned one after the other, the line that is carried along is the one on
which the text in front of them ends.  So a token stands on the line where its lexeme ends, a stray
character on the line it is found on, and what is said about the end of the source on its last line.
-/

set_option autoImplicit false

namespace Lox

open Lexicon

structure Place where
  before : List Char
  segment : Segment

def Place.upTo (p : Place) : List Char := p.before ++ p.segment.chars

def places (before : List Char) : List Segment → List Place
  | [] => []
  | s :: rest => ⟨before, s⟩ :: places (before ++ s.chars) rest

/-- The line on which a text ends. -/
def lastLine (text : List Char) : Nat := 1 + text.count '\n'

namespace Place

def token? (p : Place) : Option Token :=
  match p.segment with
  | .token kind lexeme => some ⟨kind, String.ofList lexeme, lastLine p.upTo, kind.literal? lexeme⟩
  | _ => none

/-- What is said about a segment of the source that is no part of a program. -/
def error? (source : List Char) (p : Place) : Option LexicalError :=
  match p.segment with
  | .stray _ => some ⟨lastLine p.before, .unexpectedCharacter⟩
  | .unclosed _ => some ⟨lastLine source, .unterminatedString⟩
  | _ => none

end Place

theorem lastLine_append (before text : List Char) :
    lastLine (before ++ text) = lastLine before + text.count '\n' := by
  simp only [lastLine, List.count_append]
  omega

theorem lastLine_mono {first second : List Char} (h : first <+: second) :
    lastLine first ≤ lastLine second :=
  Nat.add_le_add_left (h.sublist.count_le '\n') 1

theorem map_segment_places (before : List Char) (segs : List Segment) :
    (places before segs).map Place.segment = segs := by
  induction segs generalizing before with
  | nil => rfl
  | cons s rest ih => simp [places, ih]

theorem mem_places {before : List Char} {segs : List Segment} {p : Place} (h : p ∈ places before segs) :
    before <+: p.before ∧ p.upTo <+: before ++ segs.flatMap Segment.chars := by
  induction segs generalizing before with
  | nil => cases h
  | cons s rest ih =>
    rw [List.flatMap_cons, ← List.append_assoc]
    rcases List.mem_cons.mp h with rfl | h
    · exact ⟨List.prefix_refl _, List.prefix_append _ _⟩
    · obtain ⟨hbefore, hupTo⟩ := ih h
      exact ⟨(List.prefix_append _ _).trans hbefore, hupTo⟩

theorem places_pairwise (before : List Char) (segs : List Segment) :
    (places before segs).Pairwise fun p q => p.upTo <+: q.before := by
  induction segs generalizing before with
  | nil => exact .nil
  | cons s rest ih => exact .cons (fun q hq => (mem_places hq).1) (ih _)

namespace Scan

variable {before : List Char} {segs : List Segment}

theorem tokens_eq (hlines : ∀ s ∈ segs, s.newlines = s.chars.count '\n') :
    (ofSegments (lastLine before) segs).tokens = (places before segs).filterMap Place.token? ++
      [.endOfSource (lastLine (before ++ segs.flatMap Segment.chars))] := by
  induction segs generalizing before with
  | nil => simp [ofSegments, places]
  | cons s rest ih =>
    obtain ⟨hfirst, hlater⟩ := List.forall_mem_cons.mp hlines
    have hline : lastLine before + s.newlines = lastLine (before ++ s.chars) := by
      rw [lastLine_append, hfirst]
    rw [List.flatMap_cons, ← List.append_assoc]
    cases s with
    | token kind lexeme =>
      simp only [ofSegments, hline, ih hlater, places, List.filterMap_cons, Place.token?, Place.upTo,
        List.cons_append]
    | _ => simp only [ofSegments, hline, ih hlater, places, List.filterMap_cons, Place.token?]

/-- A stray character does not end its line, and a string without end runs to the end of the source. -/
theorem errors_eq {source : List Char} (hlines : ∀ s ∈ segs, s.newlines = s.chars.count '\n')
    (hend : ∀ p ∈ places before segs, ∀ body, p.segment = .unclosed body → p.upTo = source) :
    (ofSegments (lastLine before) segs).errors = (places before segs).filterMap (Place.error? source) := by
  induction segs generalizing before with
  | nil => rfl
  | cons s rest ih =>
    obtain ⟨hfirst, hlater⟩ := List.forall_mem_cons.mp hlines
    have hline : lastLine before + s.newlines = lastLine (before ++ s.chars) := by
      rw [lastLine_append, hfirst]
    obtain ⟨hbody, hbodies⟩ := List.forall_mem_cons.mp hend
    have hrest := ih hlater hbodies
    cases s with
    | stray c =>
      have hstays : lastLine (before ++ [c]) = lastLine before := hline.symm
      simp only [ofSegments, hline, hrest, places, List.filterMap_cons, Place.error?]
      rw [Segment.chars, hstays]
    | unclosed body =>
      have hsource : before ++ body = source := hbody body rfl
      simp only [ofSegments, hline, hrest, places, List.filterMap_cons, Place.error?]
      rw [Segment.chars, hsource]
    | _ => simp only [ofSegments, hline, hrest, places, List.filterMap_cons, Place.error?]

end Scan

theorem upTo_of_later {p : Place} {first : Segment} {segs : List Segment} {before rest : List Char}
    (hp : p ∈ places before (first :: segs)) (hfirst : p.segment ≠ first)
    (ih : ∀ before, p ∈ places before segs → p.upTo = before ++ rest) :
    p.upTo = before ++ (first.chars ++ rest) := by
  rcases List.mem_cons.mp hp with rfl | hp
  · exact absurd rfl hfirst
  · rw [ih _ hp, List.append_assoc]

theorem upTo_unclosed {cs : List Char} {segs : List Segment} (h : Splits cs segs) (before : List Char)
    {p : Place} (hp : p ∈ places before segs) {body : List Char} (hbody : p.segment = .unclosed body) :
    p.upTo = before ++ cs := by
  induction h generalizing before with
  | nil => cases hp
  | blank _ _ ih | token _ _ _ ih | comment _ _ _ ih | stray _ _ _ _ ih =>
    exact upTo_of_later hp (by simp [hbody]) ih
  | unclosed _ =>
    cases List.mem_singleton.mp hp
    rfl

theorem Place.line_of_token {p : Place} {t : Token} (h : p.token? = some t) : t.line = lastLine p.upTo := by
  obtain ⟨before, segment⟩ := p
  cases segment <;> cases h
  rfl

theorem Place.line_of_error {source : List Char} {p : Place} {e : LexicalError}
    (hend : ∀ body, p.segment = .unclosed body → p.upTo = source) (h : p.error? source = some e) :
    lastLine p.before ≤ e.line ∧ e.line ≤ lastLine p.upTo := by
  have hle : lastLine p.before ≤ lastLine p.upTo := lastLine_mono (List.prefix_append _ _)
  obtain ⟨before, segment⟩ := p
  cases segment with
  | stray c =>
    cases h
    exact ⟨Nat.le_refl _, hle⟩
  | unclosed body =>
    cases h
    rw [← hend body rfl]
    exact ⟨hle, Nat.le_refl _⟩
  | _ => cases h

section Source

variable (source : String)

theorem upTo_isPrefix {p : Place} (hp : p ∈ places [] (segments source.toList)) :
    p.upTo <+: source.toList := by
  simpa [flatMap_chars_segments] using (mem_places hp).2

theorem upTo_eq_of_unclosed {p : Place} (hp : p ∈ places [] (segments source.toList)) (body : List Char)
    (hbody : p.segment = .unclosed body) : p.upTo = source.toList :=
  upTo_unclosed (splits_segments source.toList) [] hp hbody

theorem scan_tokens_eq : (scan source).tokens =
    (places [] (segments source.toList)).filterMap Place.token? ++
      [.endOfSource (lastLine source.toList)] := by
  have h := @Scan.tokens_eq [] (segments source.toList) fun _ => newlines_of_mem
  rwa [flatMap_chars_segments] at h

theorem scan_errors_eq : (scan source).errors =
    (places [] (segments source.toList)).filterMap (Place.error? source.toList) :=
  Scan.errors_eq (fun _ => newlines_of_mem) fun _ => upTo_eq_of_unclosed source

theorem scan_token_line {t : Token} (ht : t ∈ (scan source).tokens) :
    1 ≤ t.line ∧ t.line ≤ lastLine source.toList := by
  rw [scan_tokens_eq] at ht
  rcases List.mem_append.mp ht with ht | ht
  · obtain ⟨p, hp, hpt⟩ := List.mem_filterMap.mp ht
    rw [Place.line_of_token hpt]
    exact ⟨Nat.le_add_right _ _, lastLine_mono (upTo_isPrefix source hp)⟩
  · rw [List.mem_singleton.mp ht]
    exact ⟨Nat.le_add_right _ _, Nat.le_refl _⟩

theorem scan_error_line {e : LexicalError} (he : e ∈ (scan source).errors) :
    1 ≤ e.line ∧ e.line ≤ lastLine source.toList := by
  rw [scan_errors_eq] at he
  obtain ⟨p, hp, hpe⟩ := List.mem_filterMap.mp he
  obtain ⟨hlow, hhigh⟩ := Place.line_of_error (upTo_eq_of_unclosed source hp) hpe
  exact ⟨(Nat.le_add_right _ _).trans hlow, hhigh.trans (lastLine_mono (upTo_isPrefix source hp))⟩

theorem token_lines_sorted : ((scan source).tokens.map Token.line).Pairwise (· ≤ ·) := by
  have hlast : ∀ t ∈ (scan source).tokens, t.line ≤ lastLine source.toList :=
    fun t ht => (scan_token_line source ht).2
  rw [scan_tokens_eq] at hlast ⊢
  rw [List.pairwise_map, List.pairwise_append]
  refine ⟨?_, List.pairwise_singleton _ _, fun t ht u hu => ?_⟩
  · refine (places_pairwise [] _).filterMap _ fun p q hpq t ht t' ht' => ?_
    rw [Place.line_of_token ht, Place.line_of_token ht']
    exact lastLine_mono (hpq.trans (List.prefix_append _ _))
  · rw [List.mem_singleton.mp hu]
    exact hlast t (List.mem_append_left _ ht)

theorem error_lines_sorted : ((scan source).errors.map LexicalError.line).Pairwise (· ≤ ·) := by
  rw [scan_errors_eq, List.pairwise_map, List.pairwise_filterMap]
  refine (places_pairwise [] _).imp_of_mem fun {p q} hp hq hpq e he e' he' => ?_
  calc e.line
      ≤ lastLine p.upTo := (Place.line_of_error (upTo_eq_of_unclosed source hp) he).2
    _ ≤ lastLine q.before := lastLine_mono hpq
    _ ≤ e'.line := (Place.line_of_error (upTo_eq_of_unclosed source hq) he').1

end Source

/-- A source is cut into segments, in the one way in which it splits.  Tokens stand where their lexemes
end; unexpected characters on the line they are found on; what is said about a string without end, and the
end of the source, on the last line.  So lines never go back, and none is beyond that of the end. -/
theorem scan_lines_exact (source : String) :
    let text := source.toList
    let parts := places [] (segments text)
    (Splits text (parts.map Place.segment) ∧ ∀ p ∈ parts, p.upTo <+: text) ∧
      (scan source).tokens = parts.filterMap Place.token? ++ [.endOfSource (lastLine text)] ∧
      (∀ t ∈ parts.filterMap Place.token?, t.kind ≠ .eof) ∧
      (scan source).errors = parts.filterMap (Place.error? text) ∧
      ((scan source).tokens.map Token.line).Pairwise (· ≤ ·) ∧
      ((scan source).errors.map LexicalError.line).Pairwise (· ≤ ·) ∧
      (∀ t ∈ (scan source).tokens, 1 ≤ t.line ∧ t.line ≤ lastLine text) ∧
      ∀ e ∈ (scan source).errors, 1 ≤ e.line ∧ e.line ≤ lastLine text := by
  intro text parts
  have hsplits : Splits text (parts.map Place.segment) := by
    rw [map_segment_places]
    exact splits_segments text
  refine ⟨⟨hsplits, fun p => upTo_isPrefix source⟩, scan_tokens_eq source, ?_, scan_errors_eq source,
    token_lines_sorted source, error_lines_sorted source, fun t => scan_token_line source,
    fun e => scan_error_line source⟩
  obtain ⟨init, last, hinit, hne⟩ := exists_scan_eq source
  rw [(List.append_inj' ((scan_tokens_eq source).symm.trans hinit) rfl).1]
  exact hne

example : ((scan "a\n\"b\nc\" # // d\n@ \"e\n").tokens.map Token.line,
    (scan "a\n\"b\nc\" # // d\n@ \"e\n").errors.map LexicalError.line) = ([1, 3, 5], [3, 4, 5]) := by
  cbv

end Lox
