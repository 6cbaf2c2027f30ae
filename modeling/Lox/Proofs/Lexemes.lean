import Lox.Segment

set_option autoImplicit false

namespace Lox

theorem takeWhile_append_stop {p : Char → Bool} {b : Char} (hb : p b = false) (cs ds : List Char) :
    (cs ++ b :: ds).takeWhile p = cs.takeWhile p := by
  induction cs with
  | nil => simp [hb]
  | cons c cs ih => simp [List.takeWhile_cons, ih]

theorem dropWhile_append_stop {p : Char → Bool} {b : Char} (hb : p b = false) (cs ds : List Char) :
    (cs ++ b :: ds).dropWhile p = cs.dropWhile p ++ b :: ds := by
  induction cs with
  | nil => simp [hb]
  | cons c cs ih =>
    simp only [List.cons_append, List.dropWhile_cons, ih]
    split <;> rfl

theorem takeWhile_takeWhile_self (p : Char → Bool) (cs : List Char) :
    (cs.takeWhile p).takeWhile p = cs.takeWhile p := by
  have hall : ∀ c ∈ cs.takeWhile p, p c = true := List.all_eq_true.mp List.all_takeWhile
  have happend : (cs.takeWhile p ++ []).takeWhile p = cs.takeWhile p ++ [].takeWhile p :=
    List.takeWhile_append_of_pos hall
  simpa using happend

theorem dropWhile_takeWhile_self (p : Char → Bool) (cs : List Char) :
    (cs.takeWhile p).dropWhile p = [] := by
  have hall : ∀ c ∈ cs.takeWhile p, p c = true := List.all_eq_true.mp List.all_takeWhile
  have happend : (cs.takeWhile p ++ []).dropWhile p = [].dropWhile p :=
    List.dropWhile_append_of_pos hall
  simpa using happend

namespace Segment

def isStray (c : Char) : Bool :=
  !isBlank c && c ≠ '/' && c ≠ '"' && !c.isDigit && !startsWord c && (sign? c).isNone &&
    (comparison? c).isNone

/-- The cases of `next`. -/
inductive Takes : Char → List Char → Segment → List Char → Prop where
  | blank {c : Char} {cs : List Char} : isBlank c = true → Takes c cs (.blank c) cs
  | comment {cs : List Char} : cs.head? = some '/' →
      Takes '/' cs (.comment ('/' :: cs.takeWhile (· ≠ '\n'))) (cs.dropWhile (· ≠ '\n'))
  | slash {cs : List Char} : cs.head? ≠ some '/' → Takes '/' cs (.token .slash ['/']) cs
  | string {cs body rest : List Char} : closeString? cs = some (body, rest) →
      Takes '"' cs (.token .string ('"' :: body ++ ['"'])) rest
  | unclosed {cs : List Char} : closeString? cs = none → Takes '"' cs (.unclosed ('"' :: cs)) []
  | number {c : Char} {cs : List Char} : c.isDigit = true →
      Takes c cs (.token .number (splitNumber (c :: cs)).1) (splitNumber (c :: cs)).2
  | word {c : Char} {cs : List Char} : c.isDigit = false → startsWord c = true →
      Takes c cs (.token (wordKind (c :: cs.takeWhile inWord)) (c :: cs.takeWhile inWord))
        (cs.dropWhile inWord)
  | sign {c : Char} {cs : List Char} {kind : Kind} : sign? c = some kind →
      Takes c cs (.token kind [c]) cs
  | alone {c : Char} {cs : List Char} {alone withEqual : Kind} :
      comparison? c = some (alone, withEqual) → cs.head? ≠ some '=' → Takes c cs (.token alone [c]) cs
  | withEqual {c : Char} {cs : List Char} {alone withEqual : Kind} :
      comparison? c = some (alone, withEqual) → Takes c ('=' :: cs) (.token withEqual [c, '=']) cs
  | stray {c : Char} {cs : List Char} : isStray c = true → Takes c cs (.stray c) cs

theorem next_takes (c : Char) (cs : List Char) : Takes c cs (next c cs).1 (next c cs).2 := by
  by_cases hc : isBlank c = true
  · simpa [next, hc] using Takes.blank hc
  by_cases hslash : c = '/'
  · subst hslash
    by_cases hd : cs.head? = some '/'
    · simpa [next, isBlank, hd] using Takes.comment hd
    · simpa [next, isBlank, hd] using Takes.slash hd
  by_cases hquote : c = '"'
  · subst hquote
    cases hclose : closeString? cs with
    | none => simpa [next, isBlank, hclose] using Takes.unclosed hclose
    | some split => simpa [next, isBlank, hclose] using Takes.string hclose
  by_cases hdigit : c.isDigit = true
  · simpa [next, hc, hslash, hquote, hdigit] using Takes.number hdigit
  by_cases hword : startsWord c = true
  · have hno : c.isDigit = false := by simpa using hdigit
    simpa [next, hc, hslash, hquote, hdigit, hword] using Takes.word hno hword
  cases hsign : sign? c with
  | some kind => simpa [next, hc, hslash, hquote, hdigit, hword, hsign] using Takes.sign hsign
  | none =>
    cases hkinds : comparison? c with
    | none =>
      have hstray : isStray c = true := by simp [isStray, hc, hslash, hquote, hdigit, hword, hsign, hkinds]
      simpa [next, hc, hslash, hquote, hdigit, hword, hsign, hkinds] using Takes.stray hstray
    | some kinds =>
      cases cs with
      | nil =>
        have hd : ([] : List Char).head? ≠ some '=' := by simp
        simpa [next, hc, hslash, hquote, hdigit, hword, hsign, hkinds] using Takes.alone hkinds hd
      | cons d cs =>
        by_cases hd : d = '='
        · simpa [next, hc, hslash, hquote, hdigit, hword, hsign, hkinds, hd] using
            Takes.withEqual hkinds
        · have hd' : (d :: cs).head? ≠ some '=' := by simpa using hd
          simpa [next, hc, hslash, hquote, hdigit, hword, hsign, hkinds, hd] using
            Takes.alone hkinds hd'

theorem ne_of_holds {p : Char → Bool} {c d : Char} (h : p c = true) (hd : p d = false) : c ≠ d := by
  intro heq
  rw [heq, hd] at h
  cases h

theorem not_isBlank_of_holds {p : Char → Bool} {c : Char} (h : p c = true) (hspace : p ' ' = false)
    (htab : p '\t' = false) (hreturn : p '\r' = false) (hnewline : p '\n' = false) :
    isBlank c = false := by
  simp [isBlank, ne_of_holds h hspace, ne_of_holds h htab, ne_of_holds h hreturn, ne_of_holds h hnewline]

theorem Takes.next_eq {c : Char} {cs rest : List Char} {s : Segment} (h : Takes c cs s rest) :
    next c cs = (s, rest) := by
  cases h with
  | blank hc => simp [next, hc]
  | comment hd => simp [next, isBlank, hd]
  | slash hd => simp [next, isBlank, hd]
  | string hclose => simp [next, isBlank, hclose]
  | unclosed hclose => simp [next, isBlank, hclose]
  | number hdigit =>
    have hblank := not_isBlank_of_holds hdigit (by decide) (by decide) (by decide) (by decide)
    have hslash : c ≠ '/' := ne_of_holds hdigit (by decide)
    have hquote : c ≠ '"' := ne_of_holds hdigit (by decide)
    simp [next, hblank, hslash, hquote, hdigit]
  | word hdigit hword =>
    have hblank := not_isBlank_of_holds hword (by decide) (by decide) (by decide) (by decide)
    have hslash : c ≠ '/' := ne_of_holds hword (by decide)
    have hquote : c ≠ '"' := ne_of_holds hword (by decide)
    simp [next, hblank, hslash, hquote, hdigit, hword]
  | sign hsign =>
    unfold sign? at hsign
    split at hsign <;> cases hsign <;> rfl
  | alone hkinds hd =>
    unfold comparison? at hkinds
    cases cs with
    | nil => split at hkinds <;> cases hkinds <;> rfl
    | cons d cs =>
      have hne : d ≠ '=' := by simpa using hd
      split at hkinds <;> cases hkinds <;> simp [next, isBlank, startsWord, sign?, comparison?, hne]
  | withEqual hkinds =>
    unfold comparison? at hkinds
    split at hkinds <;> cases hkinds <;> rfl
  | stray hc =>
    simp only [isStray, Bool.and_eq_true, Bool.not_eq_eq_eq_not, Bool.not_true, decide_eq_true_eq,
      Option.isNone_iff_eq_none, ne_eq] at hc
    obtain ⟨⟨⟨⟨⟨⟨hblank, hslash⟩, hquote⟩, hdigit⟩, hword⟩, hsign⟩, hkinds⟩ := hc
    simp [next, hblank, hslash, hquote, hdigit, hword, hsign, hkinds]

variable {b c : Char} {cs rest lexeme : List Char} {s : Segment} {kind : Kind}

theorem isBlank_iff {b : Char} : isBlank b = true ↔ b = ' ' ∨ b = '\t' ∨ b = '\r' ∨ b = '\n' := by
  simp [isBlank, or_assoc]

/-- A character that no segment goes on with, but for strings and comments. -/
def isStop (b : Char) : Bool := !inWord b && b ≠ '.' && b ≠ '=' && b ≠ '/'

theorem isStop_of_isBlank (h : isBlank b = true) : isStop b = true := by
  rcases isBlank_iff.mp h with rfl | rfl | rfl | rfl <;> decide

theorem inWord_of_isStop (h : isStop b = true) : inWord b = false := by
  simp only [isStop, Bool.and_eq_true, Bool.not_eq_true'] at h
  exact h.1.1.1

theorem isDigit_of_isStop (h : isStop b = true) : b.isDigit = false := by
  have hword := inWord_of_isStop h
  simp only [inWord, Char.isAlphanum, Bool.or_eq_false_iff] at hword
  exact hword.1.2

theorem splitNumber_append_stop (h : isStop b = true) (cs ds : List Char) :
    splitNumber (cs ++ b :: ds) = ((splitNumber cs).1, (splitNumber cs).2 ++ b :: ds) := by
  have hd := isDigit_of_isStop h
  have hdot : b ≠ '.' := ne_of_holds h (by decide)
  simp only [splitNumber, takeWhile_append_stop hd, dropWhile_append_stop hd]
  rcases hrest : cs.dropWhile Char.isDigit with _ | ⟨point, _ | ⟨d, more⟩⟩
  · simp [hdot]
  · by_cases hp : point = '.'
    · simp [hp, hd]
    · simp [hp]
  · by_cases hp : point = '.'
    · by_cases hdigit : d.isDigit = true
      · simp only [hp, List.cons_append, hdigit, ↓reduceIte]
        rw [← List.cons_append, takeWhile_append_stop hd, dropWhile_append_stop hd]
      · simp [hp, hdigit]
    · simp [hp]

theorem closeString?_of_quoteless {body : List Char} (h : ∀ d ∈ body, d ≠ '"') (rest : List Char) :
    closeString? (body ++ '"' :: rest) = some (body, rest) := by
  have hp : ∀ d ∈ body, decide (d ≠ '"') = true := fun d hd => decide_eq_true (h d hd)
  rw [closeString?, List.takeWhile_append_of_pos hp, List.dropWhile_append_of_pos hp]
  simp

theorem quoteless_of_closeString? {body rest : List Char} (h : closeString? cs = some (body, rest)) :
    ∀ d ∈ body, d ≠ '"' := by
  have hbody : body = cs.takeWhile (· ≠ '"') := by
    unfold closeString? at h
    split at h
    · cases h
    · cases h
      rfl
  intro d hd
  have hall := List.all_takeWhile (p := fun e : Char => decide (e ≠ '"')) (l := cs)
  rw [← hbody, List.all_eq_true] at hall
  simpa using hall d hd

theorem closeString?_append_some {body rest : List Char} (h : closeString? cs = some (body, rest))
    (ds : List Char) : closeString? (cs ++ ds) = some (body, rest ++ ds) := by
  rw [← closeString?_append h, List.append_assoc, List.cons_append]
  exact closeString?_of_quoteless (quoteless_of_closeString? h) (rest ++ ds)

theorem splitNumber_lexeme_cases (cs : List Char) :
    (splitNumber cs).1 = cs.takeWhile Char.isDigit ∨
      ∃ (d : Char) (more : List Char), d.isDigit = true ∧
        (splitNumber cs).1 = cs.takeWhile Char.isDigit ++ '.' :: d :: more.takeWhile Char.isDigit := by
  simp only [splitNumber]
  split
  · rename_i d more _
    by_cases hd : d.isDigit = true
    · exact .inr ⟨d, more, hd, by simp [hd]⟩
    · exact .inl (by simp [hd])
  · exact .inl rfl

theorem splitNumber_lexeme (cs : List Char) :
    splitNumber (splitNumber cs).1 = ((splitNumber cs).1, []) := by
  have hpoint : Char.isDigit '.' = false := by decide
  rcases splitNumber_lexeme_cases cs with h | ⟨d, more, hd, h⟩
  · rw [h]
    simp [splitNumber, takeWhile_takeWhile_self, dropWhile_takeWhile_self]
  · rw [h]
    simp [splitNumber, takeWhile_append_stop hpoint, dropWhile_append_stop hpoint,
      takeWhile_takeWhile_self, dropWhile_takeWhile_self, hd]

def EndsBefore (b : Char) : Segment → Prop
  | .comment _ => b = '\n'
  | .unclosed _ => False
  | _ => True

/-- What stands after a stop has no influence on the segment before it. -/
theorem Takes.append_stop (h : Takes c cs s rest) (hb : isStop b = true) (hs : s.EndsBefore b)
    (ds : List Char) : Takes c (cs ++ b :: ds) s (rest ++ b :: ds) := by
  have hhead : ∀ d, b ≠ d → cs.head? ≠ some d → (cs ++ b :: ds).head? ≠ some d := by
    intro d hne hd
    cases cs with
    | nil => simpa using hne
    | cons _ _ => exact hd
  cases h with
  | blank hc => exact .blank hc
  | comment hd =>
    have hstop : decide (b ≠ '\n') = false := decide_eq_false fun hne => hne hs
    have hd' : (cs ++ b :: ds).head? = some '/' := by simp [List.head?_append, hd]
    have h := Takes.comment hd'
    rw [takeWhile_append_stop hstop, dropWhile_append_stop hstop] at h
    exact h
  | slash hd => exact .slash (hhead '/' (ne_of_holds hb (by decide)) hd)
  | string hclose => exact .string (closeString?_append_some hclose (b :: ds))
  | unclosed hclose => exact hs.elim
  | number hdigit =>
    have hsplit := splitNumber_append_stop hb (c :: cs) ds
    rw [List.cons_append] at hsplit
    simpa [hsplit] using @Takes.number c (cs ++ b :: ds) hdigit
  | word hdigit hword =>
    have hstop := inWord_of_isStop hb
    simpa [takeWhile_append_stop hstop, dropWhile_append_stop hstop] using
      @Takes.word c (cs ++ b :: ds) hdigit hword
  | sign hsign => exact .sign hsign
  | alone hkinds hd => exact .alone hkinds (hhead '=' (ne_of_holds hb (by decide)) hd)
  | withEqual hkinds => exact .withEqual hkinds
  | stray hc => exact .stray hc

theorem Takes.append_blank (h : Takes c cs s rest) (hb : isBlank b = true) (hs : s.EndsBefore b)
    (ds : List Char) : Takes c (cs ++ b :: ds) s (rest ++ b :: ds) :=
  h.append_stop (isStop_of_isBlank hb) hs ds

/-- A lexeme alone is the token it was in any source. -/
theorem Takes.lexeme_alone (h : Takes c cs (.token kind lexeme) rest) :
    ∃ tail, lexeme = c :: tail ∧ Takes c tail (.token kind lexeme) [] := by
  cases h with
  | slash _ => exact ⟨[], rfl, .slash (by simp)⟩
  | @string _ body _ hclose =>
    exact ⟨body ++ ['"'], rfl, .string (closeString?_of_quoteless (quoteless_of_closeString? hclose) [])⟩
  | number hdigit =>
    have htail : ∃ tail, (splitNumber (c :: cs)).1 = c :: tail := by
      rcases splitNumber_lexeme_cases (c :: cs) with hn | ⟨d, more, _, hn⟩
      · rw [hn, List.takeWhile_cons_of_pos hdigit]
        exact ⟨_, rfl⟩
      · rw [hn, List.takeWhile_cons_of_pos hdigit]
        exact ⟨_, rfl⟩
    obtain ⟨tail, htail⟩ := htail
    have hsplit := splitNumber_lexeme (c :: cs)
    rw [htail] at hsplit ⊢
    refine ⟨tail, rfl, ?_⟩
    simpa [hsplit] using @Takes.number c tail hdigit
  | word hdigit hword =>
    refine ⟨_, rfl, ?_⟩
    simpa [takeWhile_takeWhile_self, dropWhile_takeWhile_self] using
      @Takes.word c (cs.takeWhile inWord) hdigit hword
  | sign hsign => exact ⟨[], rfl, .sign hsign⟩
  | alone hkinds _ => exact ⟨[], rfl, .alone hkinds (by simp)⟩
  | withEqual hkinds => exact ⟨['='], rfl, .withEqual hkinds⟩

theorem wordKind_ne (lexeme : List Char) : wordKind lexeme ≠ .eof ∧ wordKind lexeme ≠ .string := by
  unfold wordKind Kind.keyword?
  split <;> decide

theorem sign?_ne_eof (c : Char) : sign? c ≠ some .eof := by
  unfold sign?
  split <;> decide

theorem comparison?_ne_eof {alone withEqual : Kind} (h : comparison? c = some (alone, withEqual)) :
    alone ≠ .eof ∧ withEqual ≠ .eof := by
  unfold comparison? at h
  split at h <;> cases h <;> decide

theorem Takes.ne_eof (h : Takes c cs (.token kind lexeme) rest) : kind ≠ .eof := by
  cases h with
  | slash _ | string _ | number _ => decide
  | word _ _ => exact (wordKind_ne _).1
  | sign hsign =>
    intro heof
    exact sign?_ne_eof c (heof ▸ hsign)
  | alone hkinds _ => exact (comparison?_ne_eof hkinds).1
  | withEqual hkinds => exact (comparison?_ne_eof hkinds).2

def clean : Segment → Bool
  | .stray _ | .unclosed _ => false
  | _ => true

theorem endsBefore_newline {s : Segment} (h : s.clean = true) : s.EndsBefore '\n' := by
  cases s with
  | unclosed body => cases h
  | _ => trivial

end Segment

end Lox
