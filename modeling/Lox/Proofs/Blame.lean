import Mathlib
import Lox.Proofs.Viability

set_option autoImplicit false

namespace Lox

namespace Grammar

variable {α β : Type}

/-- How two faults may follow each other: in different places, unless at the end of the source, and in the
order of the source if both stopped a declaration. -/
structure Fault.Precedes (f g : Fault) : Prop where
  apart : f.rest.length = g.rest.length → f.token.kind = .eof
  rising : serious f.problem → serious g.problem → g.rest.length ≤ f.rest.length

/-- The fault lies in front of what is left, or at the end of the source. -/
structure Fault.Passed (rest : List Token) (f : Fault) : Prop where
  le : rest.length ≤ f.rest.length
  atEnd : f.rest.length = rest.length → f.token.kind = .eof

theorem Fault.Passed.trans {f : Fault} {ts rest : List Token} (h : f.Passed ts) (hr : rest <:+ ts) :
    f.Passed rest := by
  have hle := hr.length_le
  exact ⟨hle.trans h.le, fun heq => h.atEnd (le_antisymm (heq ▸ hle) h.le)⟩

theorem Fault.Passed.precedes {f g : Fault} {ts : List Token} (h : f.Passed ts) (hg : g.rest <:+ ts) :
    f.Precedes g :=
  ⟨fun heq => (h.trans hg).atEnd heq, fun _ _ => (h.trans hg).le⟩

namespace Outcome

def met : Outcome α → List Fault
  | .ok _ faults _ | .stopped faults _ => faults

@[simp] theorem met_after (o : Outcome α) (earlier : List Fault) :
    (o.after earlier).met = earlier ++ o.met := by
  cases o <;> rfl

theorem mem_faults_of_mem_met {o : Outcome α} {f : Fault} (h : f ∈ o.met) : f ∈ o.faults := by
  cases o with
  | ok => exact h
  | stopped => exact List.mem_append_left _ h

structure Orderly (o : Outcome α) : Prop where
  ordered : o.met.Pairwise Fault.Precedes
  passed : ∀ f ∈ o.met, f.Passed o.rest
  target : ∀ f ∈ o.faults, f.problem = .assignmentTarget → f.token.kind = .equal

theorem Orderly.andThen {o : Outcome α} (h : o.Orderly) {g : α → Reader β}
    (hg : ∀ value faults rest, o = .ok value faults rest →
      (g value rest).Orderly ∧ (g value rest).Keeps (· <:+ rest)) : (o.andThen g).Orderly := by
  cases o with
  | stopped faults fault => exact ⟨h.ordered, h.passed, h.target⟩
  | ok value faults rest =>
    obtain ⟨horderly, hwithin⟩ := hg value faults rest rfl
    rw [andThen_ok]
    refine ⟨?_, ?_, ?_⟩
    · rw [met_after, List.pairwise_append]
      refine ⟨h.ordered, horderly.ordered, fun f hf f' hf' => ?_⟩
      exact (h.passed f hf).precedes (hwithin.of_mem_faults (mem_faults_of_mem_met hf'))
    · rw [met_after, rest_after]
      intro f hf
      rcases List.mem_append.mp hf with hf | hf
      · exact (h.passed f hf).trans hwithin.of_rest
      · exact horderly.passed f hf
    · rw [faults_after]
      intro f hf
      exact (List.mem_append.mp hf).elim (h.target f) (horderly.target f)

/-- The token at which reading stopped is given up, unless it is the end of the source. -/
theorem Orderly.recovered {o : Outcome α} (h : o.Orderly) : o.recovered.Orderly := by
  cases o with
  | ok value faults rest => exact ⟨h.ordered, h.passed, h.target⟩
  | stopped faults fault =>
    have hfault : fault.Passed (resume fault.rest) := by
      obtain ⟨rest, problem⟩ := fault
      cases rest with
      | nil => exact ⟨Nat.le_refl _, fun _ => rfl⟩
      | cons t rest =>
        refine ⟨(resume_suffix _).length_le, fun heq => ?_⟩
        by_contra hne
        have hlt : (resume (t :: rest)).length ≤ rest.length := (resume_cons_suffix hne rest).length_le
        exact absurd (heq ▸ hlt) (Nat.not_succ_le_self _)
    refine ⟨?_, ?_, h.target⟩
    · refine List.pairwise_append.mpr ⟨h.ordered, List.pairwise_singleton _ _, fun f hf g hg => ?_⟩
      rw [List.mem_singleton.mp hg]
      exact (h.passed f hf).precedes (List.suffix_refl _)
    · intro f hf
      rcases List.mem_append.mp hf with hf | hf
      · exact (h.passed f hf).trans (resume_suffix _)
      · rwa [List.mem_singleton.mp hf]

end Outcome

def Orderly (r : Reader α) (ts : List Token) : Prop := Moves (fun _ => True) r ts ∧ (r ts).Orderly

theorem orderly_hereditary : Hereditary (fun _ => True) Orderly where
  ok value ts := ⟨(moves_hereditary _).ok value ts, .nil, List.forall_mem_nil _, List.forall_mem_nil _⟩
  stop hp ts := by
    refine ⟨(moves_hereditary _).stop hp ts, .nil, List.forall_mem_nil _, ?_⟩
    exact List.forall_mem_singleton.mpr fun heq => absurd heq hp
  congr hrs hs := ⟨(moves_hereditary _).congr hrs hs.1, hrs _ rfl ▸ hs.2⟩
  past hk hrs hs := ⟨(moves_hereditary _).past hk hrs hs.1, hrs _ ▸ hs.2⟩
  andThen hr hf := by
    refine ⟨(moves_hereditary _).andThen hr.1 fun value faults rest ho => (hf value faults rest ho).1, ?_⟩
    refine hr.2.andThen fun value faults rest ho => ?_
    exact ⟨(hf value faults rest ho).2, (hf value faults rest ho).1.within⟩
  blame {r equal ts} target he hk hrs hs := by
    refine ⟨(moves_hereditary _).blame target he hk hrs hs.1, ?_⟩
    have hwithin := hs.1.within
    have horderly := hs.2
    rw [hrs]
    cases ho : expression ts with
    | stopped faults fault =>
      rw [ho] at horderly
      exact ⟨horderly.ordered, horderly.passed, horderly.target⟩
    | ok value faults left =>
      rw [ho] at hwithin horderly
      have hafter : left.length < (equal :: ts).length := Nat.lt_succ_of_le hwithin.2.length_le
      refine ⟨?_, ?_, ?_⟩
      · -- The equals sign stands before all that was blamed in the value.
        refine List.pairwise_append.mpr ⟨horderly.ordered, List.pairwise_singleton _ _, fun f hf g hg => ?_⟩
        rw [List.mem_singleton.mp hg]
        have hlt : f.rest.length < (equal :: ts).length := Nat.lt_succ_of_le (hwithin.1 f hf).length_le
        exact ⟨fun heq => absurd heq hlt.ne, fun _ hserious => Bool.noConfusion hserious⟩
      · intro f hf
        rcases List.mem_append.mp hf with hf | hf
        · exact horderly.passed f hf
        · rw [List.mem_singleton.mp hf]
          exact ⟨hafter.le, fun heq => absurd heq hafter.ne'⟩
      · intro f hf
        rcases List.mem_append.mp hf with hf | hf
        · exact horderly.target f hf
        · rw [List.mem_singleton.mp hf]
          exact fun _ => he

theorem orderly_recoverable : Recoverable Orderly := fun ht hr =>
  ⟨moves_recoverable (fun _ _ => trivial) ht hr.1, hr.2.recovered⟩

/-- Faults that did not stop the reading are fewer than the tokens read, if there are any. -/
structure Outcome.Frugal (ts : List Token) (o : Outcome α) : Prop where
  within : o.rest <:+ ts
  fewer : 0 < o.met.length → o.met.length + o.rest.length < ts.length

def Outcome.Covered (ts : List Token) (o : Outcome α) : Prop := o.faults.length + o.rest.length ≤ ts.length

namespace Outcome.Frugal

theorem of_met_eq_nil {ts : List Token} {o : Outcome α} (hr : o.rest <:+ ts) (h : o.met = []) :
    o.Frugal ts :=
  ⟨hr, by simp [h]⟩

theorem past {ts : List Token} {o : Outcome α} (h : o.Frugal ts) (t : Token) : o.Frugal (t :: ts) :=
  ⟨h.within.trans (List.suffix_cons t ts), fun hpos => Nat.lt_succ_of_lt (h.fewer hpos)⟩

theorem andThen {ts : List Token} {o : Outcome α} (h : o.Frugal ts) {g : α → Reader β}
    (hg : ∀ value faults rest, o = .ok value faults rest → (g value rest).Frugal rest) :
    (o.andThen g).Frugal ts := by
  cases o with
  | stopped faults fault => exact ⟨h.within, h.fewer⟩
  | ok value faults rest =>
    have hfewer : 0 < faults.length → faults.length + rest.length < ts.length := h.fewer
    have hle : rest.length ≤ ts.length := h.within.length_le
    obtain ⟨hwithin', hfewer'⟩ := hg value faults rest rfl
    have hle' := hwithin'.length_le
    rw [andThen_ok]
    refine ⟨?_, ?_⟩
    · rw [rest_after]
      exact hwithin'.trans h.within
    · rw [met_after, rest_after, List.length_append]
      omega

/-- For a fault that stopped the reading one token more is given up or, at the end of the source, the first
one was read without being blamed. -/
theorem recovered {t : Token} {ts : List Token} {o : Outcome α} (h : o.Frugal (t :: ts))
    (ht : t.kind ≠ .eof) : o.recovered.Covered (t :: ts) := by
  cases o with
  | ok value faults rest =>
    have hfewer : 0 < faults.length → faults.length + rest.length < (t :: ts).length := h.fewer
    have hle : rest.length ≤ (t :: ts).length := h.within.length_le
    show faults.length + rest.length ≤ _
    omega
  | stopped faults fault =>
    have hfewer : 0 < faults.length → faults.length + fault.rest.length < (t :: ts).length := h.fewer
    have hwithin : fault.rest <:+ t :: ts := h.within
    have hle := hwithin.length_le
    have hresume : (resume fault.rest).length < fault.rest.length ∨
        ((resume fault.rest).length ≤ fault.rest.length ∧ fault.rest.length < (t :: ts).length) := by
      cases hrest : fault.rest with
      | nil => exact .inr ⟨Nat.le_refl 0, Nat.succ_pos _⟩
      | cons u us =>
        by_cases hu : u.kind = .eof
        · refine .inr ⟨(resume_suffix _).length_le, Nat.lt_of_le_of_ne (hrest ▸ hle) fun heq => ht ?_⟩
          cases (hrest ▸ hwithin).eq_of_length heq
          exact hu
        · exact .inl (Nat.lt_succ_of_le (resume_cons_suffix hu us).length_le)
    show (faults ++ [fault]).length + (resume fault.rest).length ≤ _
    rw [List.length_append, List.length_singleton]
    omega

end Outcome.Frugal

theorem frugal_hereditary :
    Hereditary (fun _ => True) fun {γ : Type} (r : Reader γ) ts => (r ts).Frugal ts where
  ok _ _ := .of_met_eq_nil (List.suffix_refl _) rfl
  stop _ _ := .of_met_eq_nil (List.suffix_refl _) rfl
  congr hrs hs := by
    rw [hrs _ rfl]
    exact hs
  past _ hrs hs := by
    rw [hrs]
    exact hs.past _
  andThen hr hf := hr.andThen hf
  blame {r equal ts} target _ _ hrs hs := by
    have hvalue := expression_within ts
    rw [hrs]
    cases ho : expression ts with
    | stopped faults fault =>
      rw [ho] at hs
      exact .past ⟨hs.within, hs.fewer⟩ equal
    | ok value faults left =>
      rw [ho] at hs hvalue
      have hlt : left.length < ts.length := hvalue.2 rfl
      have hfewer : 0 < faults.length → faults.length + left.length < ts.length := hs.fewer
      refine ⟨hvalue.1.trans (List.suffix_cons equal ts), fun _ => ?_⟩
      simp only [Outcome.andThen_ok, Outcome.after, Outcome.met, Outcome.rest, List.length_append,
        List.length_cons, List.length_nil]
      omega

/-- A block has its brace to spare for what goes wrong inside. -/
theorem block_frugal {t : Token} {ts : List Token} (ht : t.kind = .leftBrace)
    (h : (declarations true ts).Covered ts) : (statement (t :: ts)).Frugal (t :: ts) := by
  obtain ⟨body, faults, rest, hd⟩ := declarations_eq_ok true ts
  have hrest := declarations_within true ts
  rw [hd] at h hrest
  have hcount : faults.length + rest.length ≤ ts.length := h
  have hbrace : ((expect .rightBrace .afterBlock rest).map fun _ => Stmt.block body).Frugal rest :=
    frugal_hereditary.map (frugal_hereditary.expect trivial (by decide) rest) _
  have hfewer := hbrace.fewer
  have hle := hbrace.within.length_le
  rw [statement_cons, ht]
  dsimp only
  rw [hd, Outcome.andThen_ok]
  refine ⟨?_, ?_⟩
  · rw [Outcome.rest_after]
    exact hbrace.within.trans (hrest.1.trans (List.suffix_cons t ts))
  · rw [Outcome.met_after, Outcome.rest_after, List.length_append, List.length_cons]
    omega

theorem declarations_covered_step (inBlock : Bool) (ts : List Token) (hs : (statement ts).Frugal ts)
    (ih : ∀ us, us.length < ts.length → (declarations inBlock us).Covered us) :
    (declarations inBlock ts).Covered ts := by
  cases ts with
  | nil => simp [declarations_nil, Outcome.Covered, Outcome.faults, Outcome.rest]
  | cons t rest =>
    rw [declarations_cons]
    split
    · simp [Outcome.Covered, Outcome.faults, Outcome.rest]
    · rename_i hend
      have ht : t.kind ≠ .eof := fun heq => hend (.inl heq)
      have hfirst := (frugal_hereditary.attempt_step (fun _ _ => trivial) _ hs).recovered ht
      have hwithin := declaration_within ht rest
      obtain ⟨first, faults, left, hd⟩ : ∃ first faults left, declaration t rest = .ok first faults left :=
        Outcome.recovered_eq_ok _
      rw [← declaration_eq, hd] at hfirst
      rw [hd] at hwithin
      obtain ⟨body, more, after, hb⟩ := declarations_eq_ok inBlock left
      have hothers := ih left (hwithin.2 rfl)
      rw [hb] at hothers
      rw [hd, Outcome.andThen_ok, hb]
      simp only [Outcome.Covered, Outcome.faults, Outcome.rest, Outcome.map_ok, Outcome.after,
        List.length_append] at *
      omega

theorem declarations_covered (inBlock : Bool) (ts : List Token) : (declarations inBlock ts).Covered ts := by
  refine (statement_induction (S := fun ts => (statement ts).Frugal ts)
    (D := fun inBlock ts => (declarations inBlock ts).Covered ts) ?_ declarations_covered_step ts).2 inBlock
  intro ts ih ihd
  refine frugal_hereditary.statement_of_block (fun _ _ => trivial) ts ih ?_
  rintro t rest rfl ht
  exact block_frugal ht (ihd rest (Nat.lt_succ_self _))

end Grammar

open Grammar

def Grammar.Fault.position (input : List Token) (f : Fault) : Nat := input.length - f.rest.length

theorem kind_of_bad_target {input : List Token} {e : SyntaxError} (he : e ∈ syntaxErrors input)
    (hmessage : e.problem.message = "Invalid assignment target.") : e.token.kind = .equal := by
  have horderly := orderly_hereditary.declarations (fun _ _ => trivial) orderly_recoverable false input
  rw [syntaxErrors_eq] at he
  obtain ⟨f, hf, rfl⟩ := List.mem_map.mp he
  have hserious := serious_eq_message f.problem
  have htarget : f.problem = .assignmentTarget := by
    simpa [serious, show f.problem.message = _ from hmessage] using hserious
  exact horderly.2.target f hf htarget

section Position

variable {ts : List Token} {last : Token} (hs : ∀ t ∈ ts, t.kind ≠ .eof) (hl : last.kind = .eof)
  (rest : List Token)

include hs hl

theorem position_spec {f : Fault} (hf : f ∈ (declarations false (ts ++ last :: rest)).faults) :
    f.position (ts ++ last :: rest) ≤ ts.length ∧
      f.rest = (ts ++ last :: rest).drop (f.position (ts ++ last :: rest)) ∧
      (f.token.kind = .eof → f.position (ts ++ last :: rest) = ts.length) := by
  obtain ⟨program, faults, hd, hfaults⟩ := declarations_to_end hs hl rest
  rw [hd] at hf
  obtain ⟨p, -, hp, hrest⟩ := hfaults f hf
  have hposition : f.position (ts ++ last :: rest) = p := by
    rw [Fault.position, hrest, List.length_drop, List.length_append, List.length_cons]
    omega
  rw [hposition]
  refine ⟨hp, hrest, fun hend => ?_⟩
  by_contra hne
  have hlt : p < ts.length := Nat.lt_of_le_of_ne hp hne
  rw [Fault.token, hrest, List.drop_eq_getElem_cons (by simp; omega), List.getElem_append_left hlt] at hend
  exact hs _ (List.getElem_mem hlt) hend

theorem getElem?_position {f : Fault} (hf : f ∈ (declarations false (ts ++ last :: rest)).faults) :
    (ts ++ last :: rest)[f.position (ts ++ last :: rest)]? = some f.error.token := by
  obtain ⟨hle, hrest, -⟩ := position_spec hs hl rest hf
  have hlt : f.position (ts ++ last :: rest) < (ts ++ last :: rest).length := by
    rw [List.length_append, List.length_cons]
    omega
  rw [Fault.error, Fault.token, hrest, List.drop_eq_getElem_cons hlt, List.getElem?_eq_getElem hlt]
  rfl

theorem length_syntaxErrors_le : (syntaxErrors (ts ++ last :: rest)).length ≤ ts.length := by
  have hcovered := declarations_covered false (ts ++ last :: rest)
  obtain ⟨program, found, hd, -⟩ := declarations_to_end hs hl rest
  rw [Outcome.Covered, hd] at hcovered
  rw [syntaxErrors_eq, List.length_map, hd]
  simp only [Outcome.rest, List.length_append] at hcovered
  omega

theorem faults_precede :
    (declarations false (ts ++ last :: rest)).faults.Pairwise fun f g =>
      (f.position (ts ++ last :: rest) = g.position (ts ++ last :: rest) →
        f.position (ts ++ last :: rest) = ts.length) ∧
      (serious f.problem → serious g.problem →
        f.position (ts ++ last :: rest) ≤ g.position (ts ++ last :: rest)) := by
  have horderly := (orderly_hereditary.declarations (fun _ _ => trivial) orderly_recoverable false
    (ts ++ last :: rest)).2
  have hmet : (declarations false (ts ++ last :: rest)).met =
      (declarations false (ts ++ last :: rest)).faults := by
    obtain ⟨program, faults, left, hd⟩ := declarations_eq_ok false (ts ++ last :: rest)
    rw [hd]
    rfl
  refine (hmet ▸ horderly.ordered).imp_of_mem fun {f g} hf hg hfg => ⟨fun heq => ?_, fun hsf hsg => ?_⟩
  · obtain ⟨-, hrest, hend⟩ := position_spec hs hl rest hf
    obtain ⟨-, hrest', -⟩ := position_spec hs hl rest hg
    exact hend (hfg.apart (by rw [hrest, hrest', heq]))
  · exact Nat.sub_le_sub_left (hfg.rising hsf hsg) _

end Position

/-- A fault is known by its position, which is that of its token and not behind the first end of source.
Before it no two faults lie in the same place; those that are not about a bad target lie one behind the
other, and only the end may be blamed more than once; bad targets are blamed on equals signs; and there are
no more faults than tokens before the end. -/
theorem parse_blames_each_token_once {ts : List Token} {last : Token} (hs : ∀ t ∈ ts, t.kind ≠ .eof)
    (hl : last.kind = .eof) (rest : List Token) :
    let input := ts ++ last :: rest
    let faults := (declarations false input).faults
    syntaxErrors input = faults.map Fault.error ∧
      (∀ f ∈ faults, f.position input ≤ ts.length ∧ input[f.position input]? = some f.error.token) ∧
      ((faults.map (Fault.position input)).filter (· < ts.length)).Nodup ∧
      ((faults.filter fun f => f.problem.message ≠ "Invalid assignment target.").map
        (Fault.position input)).Pairwise (fun p q => p < q ∨ p = ts.length ∧ q = ts.length) ∧
      (∀ e ∈ syntaxErrors input, e.problem.message = "Invalid assignment target." →
        e.token.kind = .equal) ∧
      (syntaxErrors input).length ≤ ts.length := by
  intro input faults
  have hprecede := faults_precede hs hl rest
  refine ⟨syntaxErrors_eq input, ?_, ?_, ?_, fun e => kind_of_bad_target, length_syntaxErrors_le hs hl rest⟩
  · intro f hf
    exact ⟨(position_spec hs hl rest hf).1, getElem?_position hs hl rest hf⟩
  · rw [List.filter_map, List.nodup_iff_pairwise_ne, List.pairwise_map]
    refine (hprecede.filter _).imp_of_mem fun {f g} hf _ hfg heq => ?_
    have hlt : f.position input < ts.length := by simpa using (List.mem_filter.mp hf).2
    exact hlt.ne (hfg.1 heq)
  · rw [List.pairwise_map]
    refine (hprecede.filter _).imp_of_mem fun {f g} hf hg hfg => ?_
    obtain ⟨-, hsf⟩ := List.mem_filter.mp hf
    obtain ⟨-, hsg⟩ := List.mem_filter.mp hg
    rw [← serious_eq_message] at hsf hsg
    rcases Nat.lt_or_eq_of_le (hfg.2 hsf hsg) with hlt | heq
    · exact .inl hlt
    · exact .inr ⟨hfg.1 heq, heq ▸ hfg.1 heq⟩

theorem parse_blames_each_token_once_unclosed :
    let t : Kind → Token := fun kind => ⟨kind, "?", 0, none⟩
    let source := [.leftBrace, .number, .equal, .number, .equal, .semicolon, .kwPrint, .number, .equal,
      .leftParen, .number, .equal, .number, .rightParen, .semicolon, .leftParen, .number].map t
    let faults := (declarations false (source ++ [t .eof])).faults
    (∀ u ∈ source, u.kind ≠ .eof) ∧ (t .eof).kind = .eof ∧
      faults.map (fun f => (f.position (source ++ [t .eof]), f.problem)) = [(5, .expression),
        (11, .assignmentTarget), (8, .assignmentTarget), (17, .afterGrouping), (17, .afterBlock)] ∧
      ((faults.map (Fault.position (source ++ [t .eof]))).filter (· < 17)).Nodup ∧
      (syntaxErrors (source ++ [t .eof])).length ≤ 17 := by
  intro t source faults
  -- The targets are blamed from the inside out, and the end both for the grouping and for the block.
  have hs : ∀ u ∈ source, u.kind ≠ .eof := by decide
  obtain ⟨-, -, hnodup, -, -, hcount⟩ :=
    parse_blames_each_token_once hs (show (t .eof).kind = .eof from rfl) []
  have hplaces : (declarations false (source ++ [t .eof])).faults.map
      (fun f => (f.position (source ++ [t .eof]), f.problem)) = [(5, .expression),
        (11, .assignmentTarget), (8, .assignmentTarget), (17, .afterGrouping), (17, .afterBlock)] := by cbv
  exact ⟨hs, rfl, hplaces, hnodup, hcount⟩

end Lox
