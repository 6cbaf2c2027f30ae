import Mathlib
import Lox.Proofs.Cursor
import Lox.Proofs.Diagnostics

/-!
Giving up a statement does not touch the next.  A chunk is a run of tokens that ends with its only
semicolon and in which no statement seems to begin but at the front.  Whatever is wrong inside a chunk, one
declaration is read or given up exactly to its end, so that chunks in a row are parsed as each of them
alone.
-/

set_option autoImplicit false

namespace Lox

namespace Grammar

variable {α : Type}

def Expressive (r : Reader α) : Prop :=
  ∀ {K : Kind → Prop} {P : {β : Type} → Reader β → List Token → Prop}, Hereditary K P →
    (∀ kind, inExpression kind → K kind) → ∀ ts, P r ts

theorem expression_expressive : Expressive expression := fun h hK ts => h.expression hK ts

def binding (ts : List Token) : Outcome (Token × Option Expr) :=
  (expect .identifier .variableName ts).andThen fun name rest =>
    (initializer rest).map fun initial => (name, initial)

theorem binding_expressive : Expressive binding := fun h hK ts =>
  h.andThen (h.expect (hK _ rfl) (by decide) ts) fun _ _ rest _ => h.map (h.initializer hK rest) _

def terminated (r : Reader α) (problem : Problem) (build : α → Stmt) : Reader Stmt := fun ts =>
  (r ts).andThen fun value rest => (expect .semicolon problem rest).map fun _ => build value

theorem simple_eq : simple = terminated expression .afterExpression .expression := rfl

theorem printed_eq : printed = terminated expression .afterPrinted .print := rfl

theorem variableAfter_eq :
    variableAfter = terminated binding .afterDeclaration fun b => .declare b.1 b.2 := by
  funext ts
  rw [variableAfter, terminated, binding]
  cases expect .identifier .variableName ts with
  | stopped faults fault => rfl
  | ok name faults rest =>
    rw [Outcome.andThen_ok, Outcome.andThen_ok]
    cases initializer rest with
    | stopped faults fault => rfl
    | ok initial faults' rest =>
      simp only [Outcome.andThen_ok, Outcome.map_ok, Outcome.after]
      cases expect .semicolon .afterDeclaration rest <;> simp

/-- Faults that do not stop the reading are bad targets. -/
def Outcome.Mild : Outcome α → Prop
  | .ok _ faults _ | .stopped faults _ => ∀ f ∈ faults, f.problem = .assignmentTarget

theorem Outcome.Mild.after {o : Outcome α} (h : o.Mild) {earlier : List Fault}
    (he : ∀ f ∈ earlier, f.problem = .assignmentTarget) : (o.after earlier).Mild := by
  cases o <;> exact fun f hf => (List.mem_append.mp hf).elim (he f) (h f)

theorem Outcome.Mild.andThen {β : Type} {o : Outcome α} (h : o.Mild) {g : α → Reader β}
    (hg : ∀ value faults rest, o = .ok value faults rest → (g value rest).Mild) : (o.andThen g).Mild := by
  cases o with
  | ok value faults rest => exact (hg value faults rest rfl).after h
  | stopped faults fault => exact h

theorem mild_hereditary :
    Hereditary (fun _ => True) fun {β : Type} (r : Reader β) ts => (r ts).Mild where
  ok _ _ := List.forall_mem_nil _
  stop _ _ := List.forall_mem_nil _
  congr hrs hs := by
    rw [hrs _ rfl]
    exact hs
  past _ hrs hs := by
    rw [hrs]
    exact hs
  andThen hr hf := hr.andThen hf
  blame target _ _ hrs hs := by
    rw [hrs]
    exact hs.andThen fun _ _ _ _ => List.forall_mem_singleton.mpr rfl

/-- The outcome stays in front of `stop` or, having read it, ends right after it. -/
def Outcome.Halts (y : List Token) (stop : Token) (o : Outcome α) : Prop :=
  (∀ f ∈ o.faults, ∃ z, z <:+ y ∧ f.rest = z ++ [stop]) ∧
    ∀ value faults rest, o = .ok value faults rest → rest = []

theorem expect_append {ts : List Token} (h : ts ≠ []) (kind : Kind) (problem : Problem)
    (tail : List Token) : expect kind problem (ts ++ tail) = (expect kind problem ts).graft [] tail := by
  obtain ⟨t, ts, rfl⟩ := List.exists_cons_of_ne_nil h
  by_cases ht : t.kind = kind <;>
    simp [expect, ht, Outcome.graft, Fault.graft]

/-- Giving up leads to the end of the chunk from everywhere in it. -/
theorem resume_to_end {z : List Token} {stop : Token} (hs : stop.kind = .semicolon)
    (hz : ∀ t ∈ z, t.kind ≠ .eof ∧ t.kind ≠ .semicolon ∧ t.kind.startsStatement = false)
    (tail : List Token) : resume (z ++ stop :: tail) = tail := by
  induction z with
  | nil => simp [resume, hs]
  | cons t z ih =>
    obtain ⟨ht, hz⟩ := List.forall_mem_cons.mp hz
    have hnext : (current (z ++ stop :: tail)).kind.startsStatement = false := by
      cases z with
      | nil => simp [current, hs, Kind.startsStatement]
      | cons t' z => exact (hz t' List.mem_cons_self).2.2
    rw [List.cons_append, resume, if_neg ht.1, if_neg (by simp [ht.2.1, hnext]), ih hz]

section Terminated

variable {r : Reader α} (hr : Expressive r) {y : List Token} {stop : Token}
  (hy : ∀ t ∈ y, t.kind ≠ .eof ∧ t.kind ≠ .semicolon ∧ t.kind.startsStatement = false)
  (hs : stop.kind = .semicolon)

include hr hs in
theorem expressive_keeps : (r (y ++ [stop])).Keeps fun ts => ∃ z, z <:+ y ∧ ts = z ++ [stop] := by
  -- No reader of expressions takes the semicolon off.
  have hmoves : Moves (· ≠ .semicolon) r (y ++ [stop]) :=
    hr (moves_hereditary _) (by rintro kind hk rfl; cases hk) _
  refine hmoves _ ?_ ⟨y, List.suffix_refl y, rfl⟩
  rintro t ts ht ⟨z, hz, heq⟩
  cases z with
  | nil =>
    cases heq
    exact absurd hs ht
  | cons t' z =>
    obtain ⟨rfl, rfl⟩ := List.cons.inj heq
    exact ⟨z, (List.suffix_cons _ _).trans hz, rfl⟩

include hr hs in
theorem expressive_append (tail : List Token) :
    r (y ++ stop :: tail) = (r (y ++ [stop])).graft [] tail := by
  have hlocal := (hr (local_hereditary (fun _ => false) rfl [] tail) (fun _ _ => trivial)
    (y ++ [stop])).2 (y ++ [stop]) (by simp) (by simp)
  rw [List.append_nil, List.append_assoc, List.singleton_append] at hlocal
  refine hlocal.whole (by simp [Outcome.first]) ?_
  obtain ⟨z, -, hz⟩ := (expressive_keeps hr hs).of_rest
  rw [hz]
  simp

include hr hs in
theorem terminated_append (problem : Problem) (build : α → Stmt) (tail : List Token) :
    terminated r problem build (y ++ stop :: tail) =
      (terminated r problem build (y ++ [stop])).graft [] tail := by
  rw [terminated, terminated, expressive_append hr hs]
  have hkeeps := expressive_keeps hr hs (y := y)
  cases ho : r (y ++ [stop]) with
  | stopped faults fault => rfl
  | ok value faults rest =>
    rw [ho] at hkeeps
    obtain ⟨z, -, rfl⟩ := hkeeps.2
    simp only [Outcome.graft, Outcome.andThen_ok, graft_nil]
    rw [expect_append (by simp)]
    cases expect .semicolon problem (z ++ [stop]) <;> simp [Outcome.graft, Outcome.after]

include hr hy hs in
theorem terminated_halts (problem : Problem) (build : α → Stmt) :
    (terminated r problem build (y ++ [stop])).Halts y stop := by
  have hkeeps := expressive_keeps hr hs (y := y)
  rw [terminated]
  cases ho : r (y ++ [stop]) with
  | stopped faults fault =>
    rw [ho] at hkeeps
    exact ⟨fun f hf => hkeeps.of_mem_faults hf, fun _ _ _ h => by cases h⟩
  | ok value faults rest =>
    rw [ho] at hkeeps
    obtain ⟨hfaults, z, hz, rfl⟩ := hkeeps
    -- Only where nothing is left before it is the semicolon taken off.
    cases z with
    | nil =>
      rw [Outcome.andThen_ok, List.nil_append, expect_cons hs]
      refine ⟨fun f hf => hfaults f (by simpa [Outcome.faults, Outcome.after] using hf), ?_⟩
      rintro _ _ _ ⟨⟩
      rfl
    | cons t z =>
      have ht : t.kind ≠ .semicolon := (hy t (hz.mem List.mem_cons_self)).2.1
      rw [Outcome.andThen_ok, List.cons_append, expect, if_neg ht]
      constructor
      · intro f hf
        rcases List.mem_append.mp hf with hf | hf
        · exact hfaults f (by simpa using hf)
        · rw [List.mem_singleton.mp hf]
          exact ⟨t :: z, hz, rfl⟩
      · intro value faults rest h
        cases h

include hr in
theorem terminated_mild (problem : Problem) (build : α → Stmt) (ts : List Token) :
    (terminated r problem build ts).Mild := by
  refine (hr mild_hereditary (fun _ _ => trivial) ts).andThen fun value faults rest _ => ?_
  unfold expect
  split
  · split <;> exact List.forall_mem_nil _
  · exact List.forall_mem_nil _

end Terminated

def Outcome.value? : Outcome α → Option α
  | .ok value _ _ => some value
  | .stopped _ _ => none

/-- What begins with these tokens is read or given up exactly to their end, whatever comes next. -/
structure Isolated (c : List Token) : Prop where
  append : ∀ tail, attempt (c ++ tail) = (attempt c).graft [] tail
  recovered : ∀ tail, ((attempt c).graft [] tail).recovered =
    .ok (attempt c).value? ((attempt c).faults.map (Fault.graft [] tail)) tail
  mild : (attempt c).Mild
  blamed : ∀ f ∈ (attempt c).faults, ∃ t ∈ c, ∃ us, f.rest = t :: us

theorem Outcome.Halts.recovered {o : Outcome α} {y : List Token} {stop : Token} (h : o.Halts y stop)
    (hy : ∀ t ∈ y, t.kind ≠ .eof ∧ t.kind ≠ .semicolon ∧ t.kind.startsStatement = false)
    (hs : stop.kind = .semicolon) (tail : List Token) :
    (o.graft [] tail).recovered = .ok o.value? (o.faults.map (Fault.graft [] tail)) tail := by
  cases o with
  | ok value faults rest =>
    cases h.2 value faults rest rfl
    simp [graft, Outcome.recovered, value?, Outcome.faults]
  | stopped faults fault =>
    obtain ⟨z, hz, hrest⟩ := h.1 fault (List.mem_append_right _ List.mem_cons_self)
    have hresume := resume_to_end hs (fun t ht => hy t (hz.mem ht)) tail
    simp [graft, Fault.graft, Outcome.recovered, value?, Outcome.faults, hrest, hresume]

theorem isolated_of_terminated {r : Reader α} (hr : Expressive r) {y c : List Token} {stop : Token}
    (hy : ∀ t ∈ y, t.kind ≠ .eof ∧ t.kind ≠ .semicolon ∧ t.kind.startsStatement = false)
    (hs : stop.kind = .semicolon) (hc : y ++ [stop] <:+ c) (problem : Problem) (build : α → Stmt)
    (h : ∀ tail, attempt (c ++ tail) = terminated r problem build (y ++ stop :: tail)) :
    Isolated c := by
  have halone : attempt c = terminated r problem build (y ++ [stop]) := by simpa using h []
  have hhalts := terminated_halts hr hy hs problem build
  refine ⟨?_, ?_, ?_, ?_⟩
  · intro tail
    rw [h tail, halone, terminated_append hr hs]
  · rw [halone]
    exact hhalts.recovered hy hs
  · rw [halone]
    exact terminated_mild hr problem build _
  · rw [halone]
    intro f hf
    obtain ⟨z, hz, hrest⟩ := hhalts.1 f hf
    have hmem : ∀ t ∈ z ++ [stop], t ∈ c := fun t ht => by
      refine hc.mem ?_
      rcases List.mem_append.mp ht with ht | ht
      · exact List.mem_append_left _ (hz.mem ht)
      · exact List.mem_append_right _ ht
    obtain ⟨t, us, heq⟩ := List.exists_cons_of_ne_nil (List.concat_ne_nil stop z)
    exact ⟨t, hmem t (heq ▸ List.mem_cons_self), us, hrest.trans heq⟩

/-- Tokens up to their only semicolon, without braces and the end of the source, where only the first one
may begin a statement, and then one that is given up as a whole. -/
structure Chunk (c : List Token) : Prop where
  ends : ∃ body stop, c = body ++ [stop] ∧ stop.kind = .semicolon ∧ ∀ t ∈ body, t.kind ≠ .semicolon
  plain : ∀ t ∈ c, t.kind ≠ .eof ∧ t.kind ≠ .leftBrace ∧ t.kind ≠ .rightBrace
  first : ∀ t ∈ c.head?, t.kind.startsStatement → t.kind = .kwVar ∨ t.kind = .kwPrint
  others : ∀ t ∈ c.tail, t.kind.startsStatement = false

theorem attempt_simple {t : Token} (hb : t.kind ≠ .leftBrace) (hs : t.kind.startsStatement = false)
    (us : List Token) : attempt (t :: us) = simple (t :: us) := by
  rw [attempt, statement_cons]
  cases hk : t.kind <;> simp_all [Kind.startsStatement]

theorem Chunk.isolated {c : List Token} (h : Chunk c) : Isolated c := by
  obtain ⟨hends, hplain, hfirst, hothers⟩ := h
  obtain ⟨body, stop, rfl, hs, hbody⟩ := hends
  have hpart : ∀ t ∈ body, t.kind.startsStatement = false →
      t.kind ≠ .eof ∧ t.kind ≠ .semicolon ∧ t.kind.startsStatement = false := fun t ht hstart =>
    ⟨(hplain t (List.mem_append_left _ ht)).1, hbody t ht, hstart⟩
  cases body with
  | nil =>
    refine isolated_of_terminated expression_expressive (y := []) (List.forall_mem_nil _) hs
      (List.suffix_refl _) .afterExpression .expression fun tail => ?_
    rw [← simple_eq]
    exact attempt_simple (by simp [hs]) (by simp [hs, Kind.startsStatement]) tail
  | cons t body =>
    have hrest : ∀ u ∈ body, u.kind ≠ .eof ∧ u.kind ≠ .semicolon ∧ u.kind.startsStatement = false :=
      fun u hu => hpart u (List.mem_cons_of_mem t hu) (hothers u (List.mem_append_left _ hu))
    have hsuffix : body ++ [stop] <:+ t :: body ++ [stop] := List.suffix_cons _ _
    cases hstart : t.kind.startsStatement with
    | false =>
      refine isolated_of_terminated expression_expressive (y := t :: body) ?_ hs
        (List.suffix_refl _) .afterExpression .expression fun tail => ?_
      · exact List.forall_mem_cons.mpr ⟨hpart t List.mem_cons_self hstart, hrest⟩
      · rw [← simple_eq, List.append_assoc]
        exact attempt_simple (hplain t (by simp)).2.1 hstart _
    | true =>
      rcases hfirst t (by simp) hstart with hk | hk
      · refine isolated_of_terminated binding_expressive hrest hs hsuffix .afterDeclaration
          (fun b => .declare b.1 b.2) fun tail => ?_
        rw [← variableAfter_eq, List.append_assoc]
        simp [attempt, hk]
      · refine isolated_of_terminated expression_expressive hrest hs hsuffix .afterPrinted .print fun tail => ?_
        rw [← printed_eq, List.append_assoc]
        simp [attempt, hk, statement_cons]

theorem declarations_isolated {c : List Token} (h : Isolated c) {t : Token} {us : List Token}
    (hc : c = t :: us) (ht : t.kind ≠ .eof) (tail : List Token) :
    declarations false (c ++ tail) = ((declarations false tail).map ((attempt c).value?.toList ++ ·)).after
      ((attempt c).faults.map (Fault.graft [] tail)) := by
  have hdeclaration : declaration t (us ++ tail) =
      .ok (attempt c).value? ((attempt c).faults.map (Fault.graft [] tail)) tail := by
    rw [declaration_eq, ← List.cons_append, ← hc, h.append, h.recovered]
  rw [hc, List.cons_append, declarations_cons, if_neg (by simp [ht]), hdeclaration, Outcome.andThen_ok, hc]

theorem declarations_of_chunks {cs : List (List Token)} (hcs : ∀ c ∈ cs, Chunk c) {last : Token}
    (hl : last.kind = .eof) : ∃ faults,
      declarations false (cs.flatten ++ [last]) =
        .ok (cs.flatMap fun c => (attempt c).value?.toList) faults [last] ∧
      faults.map Fault.error = cs.flatMap fun c => (attempt c).faults.map Fault.error := by
  induction cs with
  | nil => exact ⟨[], by simp [declarations_cons, hl], rfl⟩
  | cons c cs ih =>
    obtain ⟨hc, hcs⟩ := List.forall_mem_cons.mp hcs
    obtain ⟨faults, hd, herrors⟩ := ih hcs
    have hisolated := hc.isolated
    have hne : c ≠ [] := by
      obtain ⟨body, stop, rfl, -⟩ := hc.ends
      simp
    obtain ⟨t, us, heq⟩ := List.exists_cons_of_ne_nil hne
    have ht : t.kind ≠ .eof := (hc.plain t (heq ▸ List.mem_cons_self)).1
    refine ⟨(attempt c).faults.map (Fault.graft [] (cs.flatten ++ [last])) ++ faults, ?_, ?_⟩
    · rw [List.flatten_cons, List.append_assoc, declarations_isolated hisolated heq ht, hd]
      rfl
    · rw [List.map_append, herrors, List.flatMap_cons, List.map_map]
      congr 1
      refine List.map_congr_left fun f hf => Fault.error_graft ?_ _
      obtain ⟨t, -, us, hrest⟩ := hisolated.blamed f hf
      simp [hrest]

end Grammar

open Grammar

theorem parse_chunks {cs : List (List Token)} (hcs : ∀ c ∈ cs, Chunk c) {last : Token}
    (hl : last.kind = .eof) :
    parse (cs.flatten ++ [last]) =
      if (cs.flatMap fun c => (attempt c).faults.map Fault.error).isEmpty then
        .ok (cs.flatMap fun c => (attempt c).value?.toList)
      else .error (cs.flatMap fun c => (attempt c).faults.map Fault.error) := by
  obtain ⟨faults, hd, herrors⟩ := declarations_of_chunks hcs hl
  rw [parse_of_declarations hd, herrors]

section

variable {c : List Token} (hc : Chunk c) {last : Token} (hl : last.kind = .eof)

include hc hl

theorem parse_chunk : parse (c ++ [last]) =
    if ((attempt c).faults.map Fault.error).isEmpty then .ok (attempt c).value?.toList
    else .error ((attempt c).faults.map Fault.error) := by
  have h := parse_chunks (List.forall_mem_singleton.mpr hc) hl
  rwa [List.flatten_singleton, List.flatMap_singleton, List.flatMap_singleton] at h

theorem syntaxErrors_chunk : syntaxErrors (c ++ [last]) = (attempt c).faults.map Fault.error := by
  rw [syntaxErrors, parse_chunk hc hl]
  cases (attempt c).faults <;> rfl

theorem syntaxErrors_chunk_blamed : ∀ e ∈ syntaxErrors (c ++ [last]), e.token ∈ c := by
  intro e he
  rw [syntaxErrors_chunk hc hl] at he
  obtain ⟨f, hf, rfl⟩ := List.mem_map.mp he
  obtain ⟨t, ht, us, hrest⟩ := hc.isolated.blamed f hf
  rwa [Fault.error, Fault.token, hrest]

theorem syntaxErrors_chunk_serious :
    ((syntaxErrors (c ++ [last])).filter (serious ·.problem)).length ≤ 1 := by
  have hmild := hc.isolated.mild
  have hnone : ∀ faults : List Fault, (∀ f ∈ faults, f.problem = .assignmentTarget) →
      (faults.map Fault.error).filter (serious ·.problem) = [] := by
    intro faults hfaults
    refine List.filter_eq_nil_iff.mpr fun e he => ?_
    obtain ⟨f, hf, rfl⟩ := List.mem_map.mp he
    simp [serious, Fault.error, hfaults f hf]
  rw [syntaxErrors_chunk hc hl]
  cases ho : attempt c with
  | ok value faults rest =>
    rw [ho] at hmild
    rw [Outcome.faults, hnone faults hmild]
    exact Nat.zero_le 1
  | stopped faults fault =>
    rw [ho] at hmild
    rw [Outcome.faults, List.map_append, List.filter_append, hnone faults hmild, List.nil_append]
    exact List.length_filter_le _ _

end

/-- Chunks in a row are parsed as each of them alone: if all are accepted, so is the whole, with their
statements in order; otherwise the whole is rejected with the errors of those that are rejected, in order.
What a chunk alone gives does not depend on the end of source behind it, its errors are about its own
tokens, and at most one of them is not about a bad target. -/
theorem parse_isolates_chunks {cs : List (List Token)} (hcs : ∀ c ∈ cs, Chunk c) {last : Token}
    (hl : last.kind = .eof) :
    (∀ programs : List (List Stmt), cs.map (fun c => parse (c ++ [last])) = programs.map .ok →
        parse (cs.flatten ++ [last]) = .ok programs.flatten) ∧
      ((∃ c ∈ cs, ∃ errors, parse (c ++ [last]) = .error errors) →
        parse (cs.flatten ++ [last]) = .error (cs.flatMap fun c => syntaxErrors (c ++ [last]))) ∧
      ∀ c ∈ cs, (∀ other : Token, other.kind = .eof → parse (c ++ [other]) = parse (c ++ [last])) ∧
        (∀ e ∈ syntaxErrors (c ++ [last]), e.token ∈ c) ∧
        ((syntaxErrors (c ++ [last])).filter
          fun e => e.problem.message ≠ "Invalid assignment target.").length ≤ 1 := by
  have herrors : (cs.flatMap fun c => syntaxErrors (c ++ [last])) =
      cs.flatMap fun c => (attempt c).faults.map Fault.error :=
    List.flatMap_congr fun c hc => syntaxErrors_chunk (hcs c hc) hl
  refine ⟨?_, ?_, ?_⟩
  · intro programs hprograms
    have hok : ∀ c ∈ cs, (attempt c).faults.map Fault.error = [] ∧
        parse (c ++ [last]) = .ok (attempt c).value?.toList := by
      intro c hc
      obtain ⟨p, -, hp⟩ := List.mem_map.mp (hprograms ▸ List.mem_map_of_mem hc)
      rw [parse_chunk (hcs c hc) hl] at hp ⊢
      split at hp
      · rename_i he
        exact ⟨List.isEmpty_iff.mp he, if_pos he⟩
      · cases hp
    have hvalues : programs = cs.map fun c => (attempt c).value?.toList := by
      refine (List.map_injective_iff.mpr fun _ _ h => Except.ok.inj h) (hprograms.symm.trans ?_)
      rw [List.map_map]
      exact List.map_congr_left fun c hc => (hok c hc).2
    have hnone : (cs.flatMap fun c => (attempt c).faults.map Fault.error) = [] :=
      List.flatMap_eq_nil_iff.mpr fun c hc => (hok c hc).1
    rw [parse_chunks hcs hl, hnone, hvalues]
    rfl
  · rintro ⟨c, hc, errors, herror⟩
    have hne : (attempt c).faults.map Fault.error ≠ [] := by
      intro hnil
      rw [parse_chunk (hcs c hc) hl, hnil] at herror
      cases herror
    rw [parse_chunks hcs hl, herrors, if_neg]
    intro hnone
    exact hne (List.flatMap_eq_nil_iff.mp (List.isEmpty_iff.mp hnone) c hc)
  · intro c hc
    refine ⟨fun other ho => ?_, syntaxErrors_chunk_blamed (hcs c hc) hl, ?_⟩
    · rw [parse_chunk (hcs c hc) ho, parse_chunk (hcs c hc) hl]
    · have h := syntaxErrors_chunk_serious (hcs c hc) hl
      simpa only [serious_eq_message] using h

theorem parse_isolates_chunks_two_failing :
    let t : Kind → Token := fun kind => ⟨kind, "?", 0, none⟩
    let unnamed := [.kwVar, .equal, .number, .semicolon].map t
    let fine := [.kwPrint, .identifier, .semicolon].map t
    let target := [.number, .equal, .number, .identifier, .semicolon].map t
    (∀ c ∈ [unnamed, fine, target], Chunk c) ∧ (t .eof).kind = .eof ∧
      parse ([unnamed, fine, target].flatten ++ [t .eof]) = .error [⟨t .equal, .variableName⟩,
        ⟨t .equal, .assignmentTarget⟩, ⟨t .identifier, .afterExpression⟩] := by
  intro t unnamed fine target
  have hcs : ∀ c ∈ [unnamed, fine, target], Chunk c := by
    refine List.forall_mem_cons.mpr ⟨?_, List.forall_mem_cons.mpr ⟨?_, List.forall_mem_singleton.mpr ?_⟩⟩
    · exact ⟨⟨[.kwVar, .equal, .number].map t, t .semicolon, rfl, rfl, by decide⟩, by decide, by decide,
        by decide⟩
    · exact ⟨⟨[.kwPrint, .identifier].map t, t .semicolon, rfl, rfl, by decide⟩, by decide, by decide,
        by decide⟩
    · exact ⟨⟨[.number, .equal, .number, .identifier].map t, t .semicolon, rfl, rfl, by decide⟩,
        by decide, by decide, by decide⟩
  have hfails : parse (unnamed ++ [t .eof]) = .error [⟨t .equal, .variableName⟩] := by cbv
  have herrors : ([unnamed, fine, target].flatMap fun c => syntaxErrors (c ++ [t .eof])) =
      [⟨t .equal, .variableName⟩, ⟨t .equal, .assignmentTarget⟩, ⟨t .identifier, .afterExpression⟩] := by
    cbv
  have hwhole := (parse_isolates_chunks hcs (show (t .eof).kind = .eof from rfl)).2.1
    ⟨unnamed, List.mem_cons_self, _, hfails⟩
  exact ⟨hcs, rfl, hwhole.trans (congrArg _ herrors)⟩

end Lox
