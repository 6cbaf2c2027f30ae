import Lox.Prompt

set_option autoImplicit false

namespace Lox

namespace Text

/-- The bytes are these lines, each ended by a line feed or by a carriage return and a line feed; the last
one may be without them, but is not empty then. -/
inductive Splits : List UInt8 → List (List UInt8) → Prop where
  | nil : Splits [] []
  | last {line : List UInt8} : line ≠ [] → 10 ∉ line → Splits line [line]
  | feed {line rest : List UInt8} {ls : List (List UInt8)} :
      10 ∉ line → line.getLast? ≠ some 13 → Splits rest ls → Splits (line ++ 10 :: rest) (line :: ls)
  | returnFeed {line rest : List UInt8} {ls : List (List UInt8)} :
      10 ∉ line → Splits rest ls → Splits (line ++ 13 :: 10 :: rest) (line :: ls)

theorem ne_feed {line : List UInt8} (h : 10 ∉ line) : ∀ b ∈ line, decide (b ≠ 10) = true := by
  intro b hb
  have hne : b ≠ 10 := fun heq => h (heq ▸ hb)
  simpa using hne

theorem lines_of_not_mem {line : List UInt8} (hne : line ≠ []) (h : 10 ∉ line) : lines line = [line] := by
  have htake : line.takeWhile (· ≠ 10) = line := by
    have happend : (line ++ []).takeWhile (· ≠ 10) = line ++ [].takeWhile (· ≠ 10) :=
      List.takeWhile_append_of_pos (ne_feed h)
    simpa using happend
  cases line with
  | nil => exact absurd rfl hne
  | cons b bs => rw [lines, if_neg h, htake]

theorem lines_append_feed {line : List UInt8} (h : 10 ∉ line) (rest : List UInt8) :
    lines (line ++ 10 :: rest) = dropReturn line :: lines rest := by
  have htake : (line ++ 10 :: rest).takeWhile (· ≠ 10) = line := by
    rw [List.takeWhile_append_of_pos (ne_feed h)]
    simp
  have hdrop : (line ++ 10 :: rest).dropWhile (· ≠ 10) = 10 :: rest := by
    rw [List.dropWhile_append_of_pos (ne_feed h)]
    simp
  have hmem : (10 : UInt8) ∈ line ++ 10 :: rest := by simp
  generalize line ++ 10 :: rest = bytes at htake hdrop hmem
  cases bytes with
  | nil => simp at hmem
  | cons b bs =>
    rw [lines, if_pos hmem, htake, hdrop]
    rfl

theorem dropReturn_of_ne {line : List UInt8} (h : line.getLast? ≠ some 13) : dropReturn line = line :=
  if_neg h

theorem dropReturn_append (line : List UInt8) : dropReturn (line ++ [13]) = line := by
  simp [dropReturn]

theorem Splits.eq_lines {bytes : List UInt8} {ls : List (List UInt8)} (h : Splits bytes ls) :
    ls = lines bytes := by
  induction h with
  | nil => rw [lines]
  | last hne hline => rw [lines_of_not_mem hne hline]
  | feed hline hreturn _ ih => rw [lines_append_feed hline, dropReturn_of_ne hreturn, ih]
  | @returnFeed line rest ls hline _ ih =>
    have hmem : 10 ∉ line ++ [13] := by simpa using hline
    have happend : line ++ 13 :: 10 :: rest = (line ++ [13]) ++ 10 :: rest := by simp
    rw [happend, lines_append_feed hmem, dropReturn_append, ih]

theorem splits_lines (bytes : List UInt8) : Splits bytes (lines bytes) := by
  induction hn : bytes.length using Nat.strongRecOn generalizing bytes with
  | ind n ih =>
    by_cases hmem : 10 ∈ bytes
    · obtain ⟨line, rest, rfl, hline⟩ := List.eq_append_cons_of_mem hmem
      have hrest : Splits rest (lines rest) := by
        refine ih rest.length ?_ rest rfl
        simp only [List.length_append, List.length_cons] at hn
        omega
      rw [lines_append_feed hline]
      by_cases hreturn : line.getLast? = some 13
      · obtain ⟨start, rfl⟩ := List.getLast?_eq_some_iff.mp hreturn
        have hstart : 10 ∉ start := fun h => hline (List.mem_append_left [13] h)
        rw [dropReturn_append, List.append_assoc]
        exact .returnFeed hstart hrest
      · rw [dropReturn_of_ne hreturn]
        exact .feed hline hreturn hrest
    · by_cases hne : bytes = []
      · rw [hne, lines]
        exact .nil
      · rw [lines_of_not_mem hne hmem]
        exact .last hne hmem

theorem splits_iff {bytes : List UInt8} {ls : List (List UInt8)} : Splits bytes ls ↔ ls = lines bytes :=
  ⟨Splits.eq_lines, fun h => h ▸ splits_lines bytes⟩

/-- The blanks of all scripts. -/
def whiteSpace : List Char :=
  ['\t', '\n', '\x0b', '\x0c', '\r', ' ', '\u0085', '\u00a0', '\u1680', '\u2000', '\u2001', '\u2002', '\u2003',
    '\u2004', '\u2005', '\u2006', '\u2007', '\u2008', '\u2009', '\u200a', '\u2028', '\u2029', '\u202f', '\u205f',
    '\u3000']

theorem mem_whiteSpace_iff {c : Char} : c ∈ whiteSpace ↔ isWhiteSpace c = true := by
  have hcodes : c ∈ whiteSpace ↔ c.toNat ∈ whiteSpace.map Char.toNat := by
    simp only [List.mem_map, Char.toNat_inj, exists_eq_right]
  have hlist : whiteSpace.map Char.toNat =
    [9, 10, 11, 12, 13, 0x20, 0x85, 0xA0, 0x1680, 0x2000, 0x2001, 0x2002, 0x2003, 0x2004, 0x2005, 0x2006,
      0x2007, 0x2008, 0x2009, 0x200A, 0x2028, 0x2029, 0x202F, 0x205F, 0x3000] := by decide
  rw [hcodes, hlist]
  simp only [isWhiteSpace, List.mem_cons, List.not_mem_nil, or_false, Bool.or_eq_true, Bool.and_eq_true,
    decide_eq_true_eq]
  omega

theorem dropWhile_blanks {blanks rest : List Char} (h : ∀ c ∈ blanks, isWhiteSpace c = true)
    (hrest : ∀ c, rest.head? = some c → isWhiteSpace c = false) :
    (blanks ++ rest).dropWhile isWhiteSpace = rest := by
  rw [List.dropWhile_append_of_pos h]
  cases rest with
  | nil => rfl
  | cons c rest => simp [hrest c rfl]

theorem trim_eq_iff {cs core : List Char} (hne : core ≠ [])
    (hfirst : ∀ c, core.head? = some c → isWhiteSpace c = false)
    (hlast : ∀ c, core.getLast? = some c → isWhiteSpace c = false) :
    trim cs = core ↔
      ∃ before after, cs = before ++ core ++ after ∧ ∀ c ∈ before ++ after, isWhiteSpace c = true := by
  have hblank : ∀ ds : List Char, ∀ c ∈ ds.takeWhile isWhiteSpace, isWhiteSpace c = true :=
    fun _ => List.all_eq_true.mp List.all_takeWhile
  constructor
  · intro h
    let front := cs.dropWhile isWhiteSpace
    have hcs : cs = cs.takeWhile isWhiteSpace ++ front := List.takeWhile_append_dropWhile.symm
    have hfront : front = core ++ (front.reverse.takeWhile isWhiteSpace).reverse := by
      rw [← h, trim, ← List.reverse_append, List.takeWhile_append_dropWhile, List.reverse_reverse]
    refine ⟨cs.takeWhile isWhiteSpace, (front.reverse.takeWhile isWhiteSpace).reverse, ?_, ?_⟩
    · rw [List.append_assoc, ← hfront]
      exact hcs
    · intro c hc
      rcases List.mem_append.mp hc with hbefore | hafter
      · exact hblank cs c hbefore
      · exact hblank front.reverse c (List.mem_reverse.mp hafter)
  · rintro ⟨before, after, rfl, hblanks⟩
    obtain ⟨hbefore, hafter⟩ := List.forall_mem_append.mp hblanks
    have hhead : ∀ c, (core ++ after).head? = some c → isWhiteSpace c = false := by
      intro c hc
      cases core with
      | nil => exact absurd rfl hne
      | cons d ds => exact hfirst c hc
    have hlast' : ∀ c, core.reverse.head? = some c → isWhiteSpace c = false := by
      intro c hc
      rw [List.head?_reverse] at hc
      exact hlast c hc
    have hafter' : ∀ c ∈ after.reverse, isWhiteSpace c = true :=
      fun c hc => hafter c (List.mem_reverse.mp hc)
    rw [trim, List.append_assoc, dropWhile_blanks hbefore hhead, List.reverse_append,
      dropWhile_blanks hafter' hlast', List.reverse_reverse]

end Text

namespace Prompt

/-- The text is `exit`, with nothing but blanks around it. -/
def SaysExit (source : String) : Prop :=
  ∃ before after, source.toList = before ++ "exit".toList ++ after ∧
    ∀ c ∈ before ++ after, c ∈ Text.whiteSpace

theorem isExit_iff {source : String} : isExit source = true ↔ SaysExit source := by
  simp only [isExit, decide_eq_true_iff, SaysExit, Text.mem_whiteSpace_iff]
  refine Text.trim_eq_iff (by decide) ?_ ?_
  · intro c hc
    cases hc
    decide
  · intro c hc
    cases hc
    decide

def Spells (line : List UInt8) (source : String) : Prop := source.toUTF8 = ⟨line.toArray⟩

end Prompt

theorem decodeText_eq_ok_iff {bytes : ByteArray} {source : String} :
    decodeText bytes = .ok source ↔ source.toUTF8 = bytes := by
  unfold decodeText String.fromUTF8?
  by_cases h : bytes.IsValidUTF8
  · rw [dif_pos h]
    constructor
    · intro heq
      cases heq
      rfl
    · rintro rfl
      rfl
  · rw [dif_neg h]
    constructor
    · intro heq
      cases heq
    · rintro rfl
      exact absurd source.isValidUTF8 h

theorem eq_notText_of_decodeText {bytes : ByteArray} {reason : ReadFailure}
    (h : decodeText bytes = .error reason) : reason = .notText := by
  unfold decodeText at h
  split at h <;> cases h
  rfl

end Lox
