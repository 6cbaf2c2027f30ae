import Mathlib
import Lox.Proofs.Diagnostics
import Lox.Proofs.Lexicon
import Lox.Proofs.Seams

/-!
Layout.  A lexeme that is followed by a blank, or by nothing, is scanned as the token it was, so that only
the lines of a program depend on how its lexemes are laid out.
-/

set_option autoImplicit false

namespace Lox

open Lexicon

/-- Blanks and comments, each comment with the newline that ends it. -/
inductive Separator : List Char → Prop where
  | nil : Separator []
  | blank {c : Char} {w : List Char} : c ∈ blanks → Separator w → Separator (c :: w)
  | comment {body w : List Char} : (∀ c ∈ body, c ≠ '\n') → Separator w →
      Separator ('/' :: '/' :: (body ++ '\n' :: w))

/-- What may follow a lexeme: a blank or nothing. -/
def EndsLexeme (cs : List Char) : Prop := ∀ c, cs.head? = some c → c ∈ blanks

theorem mem_blanks_iff {c : Char} : c ∈ blanks ↔ Segment.isBlank c = true := by
  rw [Segment.isBlank_iff]
  simp [blanks]

theorem endsLexeme_nil : EndsLexeme [] := by
  simp [EndsLexeme]

/-- The text has the lexemes in their order, with separators before the first, between any two and, if
need be, after the last.  A lexeme is followed by a blank or by nothing. -/
def Relaid (lexemes : List String) (text : String) : Prop :=
  ∃ leading following, Separator leading ∧ following.length = lexemes.length ∧
    (∀ w ∈ following, Separator w ∧ EndsLexeme w) ∧ (∀ w ∈ following.dropLast, w ≠ []) ∧
    text.toList = leading ++ (List.zipWith (fun l w => l.toList ++ w) lexemes following).flatten

def Segment.token? : Segment → Option (Kind × List Char)
  | .token kind lexeme => some (kind, lexeme)
  | _ => none

def ScansTo (cs : List Char) (tokens : List (Kind × List Char)) : Prop :=
  (∀ s ∈ segments cs, s.clean = true) ∧ (segments cs).filterMap Segment.token? = tokens

namespace ScansTo

variable {cs rest lexeme : List Char} {tokens : List (Kind × List Char)} {s : Segment} {kind : Kind}

theorem nil : ScansTo [] [] := by
  simp [ScansTo, segments_nil]

theorem skip (h : segments cs = s :: segments rest) (hclean : s.clean = true) (hnone : s.token? = none)
    (hrest : ScansTo rest tokens) : ScansTo cs tokens := by
  obtain ⟨hall, htokens⟩ := hrest
  simp only [ScansTo, h, List.forall_mem_cons, List.filterMap_cons, hnone]
  exact ⟨⟨hclean, hall⟩, htokens⟩

theorem separator {w : List Char} (h : Separator w) (hrest : ScansTo rest tokens) :
    ScansTo (w ++ rest) tokens := by
  induction h with
  | nil => exact hrest
  | blank hc _ ih => exact ih.skip (segments_of_takes (.blank (mem_blanks_iff.mp hc))) rfl rfl
  | @comment body w hbody _ ih =>
    have hp : ∀ c ∈ '/' :: body, decide (c ≠ '\n') = true := by
      intro c hc
      rcases List.mem_cons.mp hc with heq | hc
      · simp [heq]
      · exact decide_eq_true (hbody c hc)
    have hcomment : Segment.Takes '/' ('/' :: (body ++ '\n' :: w) ++ rest)
        (.comment ('/' :: '/' :: body)) ('\n' :: (w ++ rest)) := by
      have h := @Segment.Takes.comment ('/' :: body ++ '\n' :: (w ++ rest)) rfl
      rw [List.takeWhile_append_of_pos hp, List.dropWhile_append_of_pos hp] at h
      simpa using h
    have hline : ScansTo ('\n' :: (w ++ rest)) tokens :=
      ih.skip (segments_of_takes (.blank (by decide))) rfl rfl
    exact hline.skip (segments_of_takes hcomment) rfl rfl

theorem token (h : .token kind lexeme ∈ segments cs) (hends : EndsLexeme rest)
    (hrest : ScansTo rest tokens) : ScansTo (lexeme ++ rest) ((kind, lexeme) :: tokens) := by
  obtain ⟨c, ds, left, htakes⟩ := exists_takes_of_mem h
  obtain ⟨tail, rfl, halone⟩ := htakes.lexeme_alone
  have hsegments : segments (c :: tail ++ rest) = .token kind (c :: tail) :: segments rest := by
    cases rest with
    | nil =>
      rw [List.append_nil]
      exact segments_of_takes halone
    | cons b more =>
      have hblank : (Segment.token kind (c :: tail)).EndsBefore b := trivial
      exact segments_of_takes (halone.append_blank (mem_blanks_iff.mp (hends b rfl)) hblank more)
  obtain ⟨hall, htokens⟩ := hrest
  simp only [ScansTo, hsegments, List.forall_mem_cons, List.filterMap_cons, Segment.token?]
  exact ⟨⟨rfl, hall⟩, congrArg (List.cons _) htokens⟩

theorem relaid {following : List (List Char)} (ht : ∀ t ∈ tokens, .token t.1 t.2 ∈ segments cs)
    (hlength : following.length = tokens.length) (hw : ∀ w ∈ following, Separator w ∧ EndsLexeme w)
    (hne : ∀ w ∈ following.dropLast, w ≠ []) :
    ScansTo (List.zipWith (fun t w => t.2 ++ w) tokens following).flatten tokens := by
  induction tokens generalizing following with
  | nil => exact nil
  | cons t tokens ih =>
    cases following with
    | nil => cases hlength
    | cons w following =>
      have hlength' : following.length = tokens.length := by simpa using hlength
      have hne' : ∀ v ∈ following.dropLast, v ≠ [] := by
        intro v hv
        have hf := List.ne_nil_of_mem ((List.dropLast_sublist following).subset hv)
        exact hne v (by simp [List.dropLast_cons_of_ne_nil hf, hv])
      have hrest := ih (fun u hu => ht u (List.mem_cons_of_mem t hu)) hlength'
        (fun v hv => hw v (List.mem_cons_of_mem w hv)) hne'
      obtain ⟨hsep, hends⟩ := hw w List.mem_cons_self
      have hends' : EndsLexeme (w ++ (List.zipWith (fun t w => t.2 ++ w) tokens following).flatten) := by
        cases w with
        | cons c w => exact hends
        | nil =>
          cases following with
          | nil => simpa using endsLexeme_nil
          | cons v following => exact absurd rfl (hne [] (by simp))
      rw [List.zipWith_cons_cons, List.flatten_cons, List.append_assoc]
      exact (hrest.separator hsep).token (ht t List.mem_cons_self) hends'

end ScansTo

/-- All lines made the same: what then is equal differs in lines only. -/
def nowhere : Nat → Nat := fun _ => 0

namespace Scan

theorem tokens_renumber_nowhere (line : Nat) (segs : List Segment) :
    (ofSegments line segs).tokens.map (Token.renumber nowhere) =
      (segs.filterMap Segment.token?).map
        (fun t => ⟨t.1, String.ofList t.2, 0, t.1.literal? t.2⟩) ++ [.endOfSource 0] := by
  induction segs generalizing line with
  | nil => rfl
  | cons s rest ih =>
    cases s with
    | token kind lexeme => exact congrArg (List.cons _) (ih _)
    | _ => exact ih _

theorem lexemes_eq (line : Nat) (segs : List Segment) :
    (ofSegments line segs).tokens.dropLast.map Token.lexeme =
      (segs.filterMap Segment.token?).map fun t => String.ofList t.2 := by
  have h : ((ofSegments line segs).tokens.map (Token.renumber nowhere)).dropLast.map Token.lexeme =
      (segs.filterMap Segment.token?).map fun t => String.ofList t.2 := by
    rw [tokens_renumber_nowhere, List.dropLast_concat, List.map_map]
    rfl
  rw [← List.map_dropLast, List.map_map] at h
  exact h

end Scan

theorem scan_relaid {source relaid : String}
    (hl : Relaid ((scan source).tokens.dropLast.map Token.lexeme) relaid) :
    (scan relaid).errors = [] ∧
      (scan relaid).tokens.map (Token.renumber nowhere) =
        (scan source).tokens.map (Token.renumber nowhere) := by
  obtain ⟨leading, following, hleading, hlength, hw, hne, htext⟩ := hl
  rw [scan, Scan.lexemes_eq] at hlength htext
  simp only [List.length_map] at hlength
  simp only [List.zipWith_map_left, String.toList_ofList] at htext
  have ht : ∀ t ∈ (segments source.toList).filterMap Segment.token?,
      .token t.1 t.2 ∈ segments source.toList := by
    intro t ht
    obtain ⟨s, hs, htoken⟩ := List.mem_filterMap.mp ht
    cases s <;> cases htoken
    exact hs
  obtain ⟨hall, htokens⟩ := (ScansTo.relaid ht hlength hw hne).separator hleading
  rw [← htext] at hall htokens
  constructor
  · rw [scan, Scan.errors_eq_nil_iff]
    exact hall
  · rw [scan, scan, Scan.tokens_renumber_nowhere, Scan.tokens_renumber_nowhere, htokens]

theorem renumberParsed_nowhere_eq {a b : String}
    (h : (scan a).tokens.map (Token.renumber nowhere) = (scan b).tokens.map (Token.renumber nowhere)) :
    renumberParsed nowhere (parse (scan a).tokens) = renumberParsed nowhere (parse (scan b).tokens) := by
  rw [← parse_scan_map, ← parse_scan_map, h]

theorem diagnose_nowhere_eq {a b : String} (ha : (scan a).errors = []) (hb : (scan b).errors = [])
    (h : (scan a).tokens.map (Token.renumber nowhere) = (scan b).tokens.map (Token.renumber nowhere)) :
    (diagnose a).renumber nowhere = (diagnose b).renumber nowhere := by
  have hparse := renumberParsed_nowhere_eq h
  simp only [diagnose, syntaxErrors, Diagnostics.renumber, ha, hb]
  cases hpa : parse (scan a).tokens with
  | ok p =>
    cases hpb : parse (scan b).tokens with
    | ok q => rfl
    | error errors => simp [hpa, hpb, renumberParsed] at hparse
  | error errors =>
    cases hpb : parse (scan b).tokens with
    | ok q => simp [hpa, hpb, renumberParsed] at hparse
    | error errors' =>
      rw [hpa, hpb] at hparse
      exact congrArg (Diagnostics.mk []) (Except.error.inj hparse)

/-- Sources whose tokens differ in lines only are both faulty, with as many faults, or both spell the same
program but for the lines. -/
theorem alike_of_tokens {a b : String} (ha : (scan a).errors = []) (hb : (scan b).errors = [])
    (h : (scan a).tokens.map (Token.renumber nowhere) = (scan b).tokens.map (Token.renumber nowhere)) :
    ((diagnose a).count = (diagnose b).count ∧ (diagnose b).count ≠ 0) ∨
      ∃ p q, parse (scan a).tokens = .ok p ∧ parse (scan b).tokens = .ok q ∧
        p.map (Stmt.renumber nowhere) = q.map (Stmt.renumber nowhere) := by
  have hcount : (diagnose a).count = (diagnose b).count := by
    rw [← Diagnostics.count_renumber nowhere, diagnose_nowhere_eq ha hb h, Diagnostics.count_renumber]
  rcases faultless_or_count_ne_zero b with ⟨_, q, hq⟩ | hne
  · have hparse := renumberParsed_nowhere_eq h
    cases hp : parse (scan a).tokens with
    | error errors => simp [hp, hq, renumberParsed] at hparse
    | ok p =>
      rw [hp, hq] at hparse
      exact .inr ⟨p, q, rfl, hq, Except.ok.inj hparse⟩
  · exact .inl ⟨hcount, hne⟩

/-- Laid out again, a source keeps its tokens, its program or what is wrong with it, and all that running
it does, but for the lines. -/
theorem run_relaid {source relaid : String} (hs : (scan source).errors = [])
    (hl : Relaid ((scan source).tokens.dropLast.map Token.lexeme) relaid) :
    (scan relaid).errors = [] ∧
      (scan relaid).tokens.map (fun t => (t.kind, t.lexeme, t.literal)) =
        (scan source).tokens.map (fun t => (t.kind, t.lexeme, t.literal)) ∧
      (diagnose relaid).renumber nowhere = (diagnose source).renumber nowhere ∧
      (∀ s, (Session.compile relaid s).map (fun r => r.1.map (List.map (Stmt.renumber nowhere))) =
        (Session.compile source s).map (fun r => r.1.map (List.map (Stmt.renumber nowhere)))) ∧
      ∀ steps s, Session.effect nowhere (Session.run steps relaid s) =
        Session.effect nowhere (Session.run steps source s) := by
  obtain ⟨hr, htokens⟩ := scan_relaid hl
  have hcontent := congrArg (List.map fun t : Token => (t.kind, t.lexeme, t.literal)) htokens
  simp only [List.map_map] at hcontent
  refine ⟨hr, hcontent, diagnose_nowhere_eq hr hs htokens, ?_, ?_⟩
  · intro s
    rcases alike_of_tokens hr hs htokens with ⟨hcount, hne⟩ | ⟨p, q, hp, hq, hpq⟩
    · rw [Session.compile_of_count_ne_zero hne, Session.compile_of_count_ne_zero (hcount ▸ hne), hcount]
      rfl
    · rw [Session.compile_of_faultless hr hp, Session.compile_of_faultless hs hq]
      exact congrArg (fun program => some (Except.ok program)) hpq
  · intro steps s
    rcases alike_of_tokens hr hs htokens with ⟨hcount, hne⟩ | ⟨p, q, hp, hq, hpq⟩
    · rw [Session.run_of_count_ne_zero hne, Session.run_of_count_ne_zero (hcount ▸ hne), hcount]
      rfl
    · rw [Session.run_of_faultless hr hp, Session.run_of_faultless hs hq,
        ← Session.effect_interpret_map nowhere steps p s, hpq, Session.effect_interpret_map]

theorem run_relaid_comment_in_expression :
    let source := "!a;//"
    let relaid := "//not\n!\t// a\n a\n;"
    (scan source).errors = [] ∧
      Relaid ((scan source).tokens.dropLast.map Token.lexeme) relaid ∧
      ∀ steps s, Session.effect nowhere (Session.run steps relaid s) =
        Session.effect nowhere (Session.run steps source s) := by
  intro source relaid
  have hscan : scan source = ⟨[⟨.bang, "!", 1, none⟩, ⟨.identifier, "a", 1, none⟩,
      ⟨.semicolon, ";", 1, none⟩, .endOfSource 1], []⟩ := by cbv
  have hclean : (scan source).errors = [] := by rw [hscan]
  have hrelaid : Relaid ((scan source).tokens.dropLast.map Token.lexeme) relaid := by
    rw [hscan]
    have hnot : ∀ c ∈ ['n', 'o', 't'], c ≠ '\n' := by simp
    have ha : ∀ c ∈ [' ', 'a'], c ≠ '\n' := by simp
    have htab : '\t' ∈ blanks := by decide
    have hnewline : '\n' ∈ blanks := by decide
    have hspace : ' ' ∈ blanks := by decide
    refine ⟨"//not\n".toList, ["\t// a\n ".toList, "\n".toList, []], ?_, rfl, ?_, ?_, ?_⟩
    · exact .comment hnot .nil
    · intro w hw
      simp only [List.mem_cons, List.not_mem_nil, or_false] at hw
      rcases hw with rfl | rfl | rfl
      · exact ⟨.blank htab (.comment ha (.blank hspace .nil)), fun c hc => Option.some.inj hc ▸ htab⟩
      · exact ⟨.blank hnewline .nil, fun c hc => Option.some.inj hc ▸ hnewline⟩
      · exact ⟨.nil, endsLexeme_nil⟩
    · decide
    · decide
  exact ⟨hclean, hrelaid, (run_relaid hclean hrelaid).2.2.2.2⟩

end Lox
