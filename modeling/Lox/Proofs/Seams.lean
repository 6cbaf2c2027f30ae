import Lox.Proofs.Lexemes
import Lox.Proofs.Renumber

/-!
Where a source may be cut.  A blank, as any stop, ends every segment before it, but for a string that is
not closed and a comment that no newline ends; a source that is cut at such a blank is scanned part by
part, and the lines of the later part move down by the newlines in the earlier one.
-/

set_option autoImplicit false

namespace Lox

theorem segments_of_takes {c : Char} {cs rest : List Char} {s : Segment}
    (h : Segment.Takes c cs s rest) : segments (c :: cs) = s :: segments rest := by
  rw [segments_cons, h.next_eq]

theorem segments_append_stop {b : Char} (hb : Segment.isStop b = true) (cs ds : List Char)
    (h : ∀ s ∈ segments cs, s.EndsBefore b) : segments (cs ++ b :: ds) = segments cs ++ segments (b :: ds) := by
  fun_induction segments cs with
  | case1 => rfl
  | case2 c cs ih =>
    have hfirst := (Segment.next_takes c cs).append_stop hb (h _ List.mem_cons_self) ds
    have hrest := ih fun s hs => h s (List.mem_cons_of_mem _ hs)
    rw [List.cons_append, segments_of_takes hfirst, hrest]
    rfl

theorem segments_append_blank {b : Char} (hb : Segment.isBlank b = true) (cs ds : List Char)
    (h : ∀ s ∈ segments cs, s.EndsBefore b) :
    segments (cs ++ b :: ds) = segments cs ++ .blank b :: segments ds := by
  rw [segments_append_stop (Segment.isStop_of_isBlank hb) cs ds h, segments_of_takes (.blank hb)]

theorem exists_takes_of_mem {cs : List Char} {s : Segment} (h : s ∈ segments cs) :
    ∃ c ds rest, Segment.Takes c ds s rest := by
  fun_induction segments cs with
  | case1 => simp at h
  | case2 c cs ih =>
    rcases List.mem_cons.mp h with heq | h
    · exact ⟨c, cs, _, heq ▸ Segment.next_takes c cs⟩
    · exact ih h

namespace Segment

theorem newline_not_mem_takeWhile {p : Char → Bool} (h : p '\n' = false) (cs : List Char) :
    '\n' ∉ cs.takeWhile p := by
  intro hmem
  have hall : ∀ c ∈ cs.takeWhile p, p c = true := List.all_eq_true.mp List.all_takeWhile
  exact ne_of_holds (hall _ hmem) h rfl

theorem newlines_token {kind : Kind} (h : kind ≠ .string) (lexeme : List Char) :
    newlines (.token kind lexeme) = 0 := by
  cases kind with
  | string => exact absurd rfl h
  | _ => rfl

theorem newlines_eq_of_not_mem {s : Segment} (hzero : s.newlines = 0) (hnone : '\n' ∉ s.chars) :
    s.newlines = s.chars.count '\n' := by
  rw [hzero, List.count_eq_zero.mpr hnone]

/-- Only blanks and strings have newlines in them, and there the line moves on at each. -/
theorem Takes.newlines_eq {c : Char} {cs rest : List Char} {s : Segment} (h : Takes c cs s rest) :
    s.newlines = s.chars.count '\n' := by
  cases h with
  | blank _ => simp [newlines, chars, List.count_cons]
  | comment _ =>
    refine newlines_eq_of_not_mem rfl ?_
    exact List.not_mem_cons_of_ne_of_not_mem (by decide) (newline_not_mem_takeWhile (by decide) cs)
  | slash _ | string _ | unclosed _ => rfl
  | number _ =>
    refine newlines_eq_of_not_mem rfl ?_
    have hdigits := newline_not_mem_takeWhile (p := Char.isDigit) (by decide)
    rcases splitNumber_lexeme_cases (c :: cs) with heq | ⟨d, more, hd, heq⟩
    · rw [chars, heq]
      exact hdigits _
    · have hne : d ≠ '\n' := ne_of_holds hd (by decide)
      rw [chars, heq]
      simp [hdigits, hne.symm]
  | word _ hword =>
    refine newlines_eq_of_not_mem (newlines_token (wordKind_ne _).2 _) ?_
    have hne : c ≠ '\n' := ne_of_holds hword (by decide)
    exact List.not_mem_cons_of_ne_of_not_mem hne.symm (newline_not_mem_takeWhile (by decide) cs)
  | sign hsign =>
    unfold sign? at hsign
    split at hsign <;> cases hsign <;> rfl
  | alone hkinds _ | withEqual hkinds =>
    unfold comparison? at hkinds
    split at hkinds <;> cases hkinds <;> rfl
  | stray hc =>
    have hne : c ≠ '\n' := ne_of_holds hc (by decide)
    simp [newlines, chars, hne]

end Segment

theorem newlines_of_mem {cs : List Char} {s : Segment} (h : s ∈ segments cs) :
    s.newlines = s.chars.count '\n' := by
  obtain ⟨_, _, _, htakes⟩ := exists_takes_of_mem h
  exact htakes.newlines_eq

def Scan.renumber (g : Nat → Nat) (s : Scan) : Scan :=
  ⟨s.tokens.map (Token.renumber g), s.errors.map (LexicalError.renumber g)⟩

namespace Scan

theorem ofSegments_add (line k : Nat) (segs : List Segment) :
    ofSegments (line + k) segs = (ofSegments line segs).renumber (· + k) := by
  induction segs generalizing line with
  | nil => rfl
  | cons s rest ih =>
    have hline : line + k + s.newlines = line + s.newlines + k := by omega
    cases s <;> simp only [ofSegments, hline, ih] <;> rfl

theorem exists_tokens_eq (line : Nat) (segs : List Segment) :
    ∃ init last, (ofSegments line segs).tokens = init ++ [.endOfSource last] ∧
      ∀ t ∈ init, .token t.kind t.lexeme.toList ∈ segs := by
  induction segs generalizing line with
  | nil => exact ⟨[], line, rfl, List.forall_mem_nil _⟩
  | cons s rest ih =>
    obtain ⟨init, last, h, hinit⟩ := ih (line + s.newlines)
    have hrest : ∀ t ∈ init, .token t.kind t.lexeme.toList ∈ s :: rest := fun t ht =>
      List.mem_cons_of_mem s (hinit t ht)
    cases s with
    | token kind lexeme =>
      simp only [ofSegments, h]
      refine ⟨_ :: init, last, rfl, ?_⟩
      intro t ht
      rcases List.mem_cons.mp ht with heq | ht
      · simp [heq]
      · exact hrest t ht
    | _ => exact ⟨init, last, h, hrest⟩

theorem ofSegments_append (line : Nat) (cs : List Char) (second : List Segment) :
    ofSegments line (segments cs ++ second) =
      ⟨(ofSegments line (segments cs)).tokens.dropLast ++
          (ofSegments (line + cs.count '\n') second).tokens,
        (ofSegments line (segments cs)).errors ++
          (ofSegments (line + cs.count '\n') second).errors⟩ := by
  fun_induction segments cs generalizing line with
  | case1 => rfl
  | case2 c cs ih =>
    -- The segment in front moves the line on as far as its characters do.
    have hfirst := (Segment.next_takes c cs).newlines_eq
    have hchars := Segment.chars_next c cs
    generalize (Segment.next c cs).1 = s at hfirst hchars ⊢
    generalize (Segment.next c cs).2 = rest at ih hchars ⊢
    have hline : line + s.newlines + rest.count '\n' = line + (c :: cs).count '\n' := by
      rw [← hchars, List.count_append, hfirst]
      omega
    obtain ⟨init, last, hlast, _⟩ := exists_tokens_eq (line + s.newlines) (segments rest)
    have hne : (ofSegments (line + s.newlines) (segments rest)).tokens ≠ [] := by simp [hlast]
    cases s with
    | token kind lexeme =>
      simp only [List.cons_append, ofSegments, ih, hline, List.dropLast_cons_of_ne_nil hne]
    | _ => simp only [List.cons_append, ofSegments, ih, hline]

theorem errors_eq_nil_iff (line : Nat) (segs : List Segment) :
    (ofSegments line segs).errors = [] ↔ ∀ s ∈ segs, s.clean = true := by
  induction segs generalizing line with
  | nil => simp [ofSegments]
  | cons s rest ih => cases s <;> simp [ofSegments, Segment.clean, ih]

end Scan

theorem exists_scan_eq (source : String) :
    ∃ init last, (scan source).tokens = init ++ [.endOfSource last] ∧ ∀ t ∈ init, t.kind ≠ .eof := by
  obtain ⟨init, last, h, hinit⟩ := Scan.exists_tokens_eq 1 (segments source.toList)
  refine ⟨init, last, h, ?_⟩
  intro t ht
  obtain ⟨c, cs, rest, htakes⟩ := exists_takes_of_mem (hinit t ht)
  exact htakes.ne_eof

theorem parse_scan_map (g : Nat → Nat) (source : String) :
    parse ((scan source).tokens.map (Token.renumber g)) = renumberParsed g (parse (scan source).tokens) := by
  obtain ⟨init, last, htokens, _⟩ := exists_scan_eq source
  have hm : Token.endOfSource last ∈ (scan source).tokens := by simp [htokens]
  exact parse_map g rfl hm

/-- A source without fault and another on the lines after it are scanned apart. -/
theorem scan_append_newline {first : String} (h : (scan first).errors = []) (second : String) :
    scan (first ++ "\n" ++ second) =
      ⟨(scan first).tokens.dropLast ++
          (scan second).tokens.map (Token.renumber (· + (1 + first.toList.count '\n'))),
        (scan second).errors.map (LexicalError.renumber (· + (1 + first.toList.count '\n')))⟩ := by
  have hclean := (Scan.errors_eq_nil_iff 1 (segments first.toList)).mp h
  have hsegments : segments (first ++ "\n" ++ second).toList =
      segments first.toList ++ .blank '\n' :: segments second.toList := by
    rw [String.toList_append, String.toList_append, List.append_assoc]
    exact segments_append_blank (by decide) _ _ fun s hs => Segment.endsBefore_newline (hclean s hs)
  have hline : 1 + first.toList.count '\n' + Segment.newlines (.blank '\n') =
      1 + (1 + first.toList.count '\n') := by
    have : Segment.newlines (.blank '\n') = 1 := by decide
    omega
  have hsecond : Scan.ofSegments (1 + first.toList.count '\n')
      (.blank '\n' :: segments second.toList) =
        (scan second).renumber (· + (1 + first.toList.count '\n')) := by
    rw [Scan.ofSegments, hline]
    exact Scan.ofSegments_add 1 _ _
  have hfirst : (Scan.ofSegments 1 (segments first.toList)).errors = [] := h
  rw [scan, hsegments, Scan.ofSegments_append, hsecond, hfirst]
  rfl

end Lox
