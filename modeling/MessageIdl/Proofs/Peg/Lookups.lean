import MessageIdl.Proofs.Peg.References
import MessageIdl.Proofs.Peg.Trying

/-!
# Lookups of rules

A grammar is refused if a name in it means nothing.  In the runs of any other grammar each lookup of a
rule has an answer: what is tried has been part of some rule, and the references in all rules were
checked.

* `Expr.Part`: the parts of an expression, at any depth.
* `Expr.mem_refs_iff`: the names of an expression are those of the references in it.
* `Parser.refused_iff`: which grammars are refused.
* `Parser.raised_tried`: the faults of a parse are raised by what is tried.
* `Parser.lookups_answered`: both, for every grammar.
-/

namespace MessageIdl.Peg

open MessageIdl.Source

variable {α : Type}

/-! ### References at any depth -/

namespace Expr

/-- `Part p e`: `p` is `e` or stands in `e` at any depth. -/
inductive Part (p : Expr α) : Expr α → Prop where
  | self : Part p p
  | seq {e items} : e ∈ items → Part p e → Part p (.seq items)
  | choice {e alternatives} : e ∈ alternatives → Part p e → Part p (.choice alternatives)
  | repeated {least body} : Part p body → Part p (.repeated least body)
  | optional {body} : Part p body → Part p (.optional body)
  | not {body} : Part p body → Part p (.not body)
  | action {act body} : Part p body → Part p (.action act body)

mutual

/-- What is listed as a reference of an expression stands in it. -/
theorem part_of_mem_refs {name : String} : ∀ {e : Expr α}, name ∈ e.refs → Part (.ref name) e
  | .seq _, h => by
      obtain ⟨e, he, hp⟩ := part_of_mem_refsOfParts h
      exact .seq he hp
  | .choice _, h => by
      obtain ⟨e, he, hp⟩ := part_of_mem_refsOfParts h
      exact .choice he hp
  | .repeated _ _, h => .repeated (part_of_mem_refs h)
  | .optional _, h => .optional (part_of_mem_refs h)
  | .not _, h => .not (part_of_mem_refs h)
  | .ref _, h => by
      cases List.mem_singleton.mp h
      exact .self
  | .action _ _, h => .action (part_of_mem_refs h)
  | .literal _, h => nomatch h
  | .pattern _, h => nomatch h
  | .endOfInput, h => nomatch h
  | .hole, h => nomatch h

theorem part_of_mem_refsOfParts {name : String} :
    ∀ {es : List (Expr α)}, name ∈ refsOfParts es → ∃ e ∈ es, Part (.ref name) e
  | _ :: _, h => by
      rcases List.mem_append.mp h with h | h
      · exact ⟨_, List.mem_cons_self, part_of_mem_refs h⟩
      · obtain ⟨e, he, hp⟩ := part_of_mem_refsOfParts h
        exact ⟨e, List.mem_cons_of_mem _ he, hp⟩

end

/-- **The names of an expression** are those of the references in it, at any depth. -/
theorem mem_refs_iff {name : String} {e : Expr α} : name ∈ e.refs ↔ Part (.ref name) e := by
  refine ⟨part_of_mem_refs, fun h => ?_⟩
  induction h with
  | self => exact List.mem_singleton_self name
  | seq he _ ih => exact mem_refsOfParts.mpr ⟨_, he, ih⟩
  | choice he _ ih => exact mem_refsOfParts.mpr ⟨_, he, ih⟩
  | repeated _ ih => exact ih
  | optional _ ih => exact ih
  | not _ ih => exact ih
  | action _ ih => exact ih

end Expr

/-! ### Grammars that are refused -/

namespace Parser

variable {g : Grammar α} {p : Parser α} {file src : String} {fault : Fault}

/-- A grammar is refused if its start rule or some reference in a rule means nothing. -/
theorem refused_iff : (∃ e, ofGrammar g = .error e) ↔
    (∀ r ∈ g.rules, r.name ≠ g.start) ∨
      ∃ r ∈ g.rules, ∃ name, Expr.Part (.ref name) r.body ∧ ∀ r' ∈ g.rules, r'.name ≠ name := by
  have hdefines (name : String) : ¬ g.defines name = true ↔ ∀ r ∈ g.rules, r.name ≠ name := by
    rw [Grammar.defines_iff]
    push Not
    rfl
  have hok : (∃ e, ofGrammar g = .error e) ↔ ¬ g.check = .ok () := by
    unfold ofGrammar
    split
    · rename_i h
      simp [h]
    · rename_i e h
      simp [h]
  rw [hok, Grammar.check_eq_ok_iff, not_and_or, hdefines]
  refine or_congr_right ?_
  push Not
  simp only [← hdefines, Expr.mem_refs_iff, ne_eq]

/-! ### Lookups of a run -/

/-- The rules of a checked grammar refer to rules. -/
theorem rules_defined (hg : ofGrammar g = .ok p) {name : String} {body : Expr α}
    (hf : p.find name = some body) : body.Defined p.find := exists_ref hg hf

/-- All references that the run of a checked grammar tries mean something. -/
theorem tried_ref (hg : ofGrammar g = .ok p) {lines : LineIndex} {c c' : Cursor} {name : String}
    (h : Tries p.find lines (.ref p.start) c (.ref name) c') : ∃ body, p.find name = some body := by
  have hstart : (Expr.ref p.start).Defined p.find := by
    intro ref href
    cases List.mem_singleton.mp href
    exact exists_start hg
  exact h.defined (fun _ _ => rules_defined hg) hstart name (List.mem_singleton_self name)

/-- The faults of a parse are raised by what is tried. -/
theorem raised_tried (h : p.parse file src = .error (.raised fault)) :
    ∃ e c, Tries p.find (LineIndex.ofText file src.toList) (.ref p.start) ⟨0, src.toList⟩ e c ∧
      Raises p.find (LineIndex.ofText file src.toList) e c fault := by
  have hy := callRule_yields p.find (LineIndex.ofText file src.toList) (p.depth src.toList.length)
    p.start ⟨0, src.toList⟩ {}
  rcases hm : p.matchStart (LineIndex.ofText file src.toList) src.toList with ⟨o, w⟩
  rw [show callRule p.find _ _ p.start _ {} = (o, w) from hm] at hy
  simp only [parse, hm] at h
  cases o with
  | raised fault' =>
    cases h
    exact (hy.resolve_left (by simp)).exists_raises
  | matched stop v =>
    simp only at h
    split at h <;> cases h
  | failed => cases h
  | exhausted => cases h

/-- **Every lookup of a rule is answered.**  A grammar is refused if and only if no rule has the name of the
start rule, or a reference in a rule, at any depth, has the name of no rule.  The parser of any other
grammar, also of one with several rules of a name, never looks a rule up in vain: all references that are
tried, whatever the text, mean something, and what raises a fault is a place where an expression was left
out, or an action that does not accept the values of a match. -/
theorem lookups_answered (g : Grammar α) :
    ((∃ e, ofGrammar g = .error e) ↔
      (∀ r ∈ g.rules, r.name ≠ g.start) ∨
        ∃ r ∈ g.rules, ∃ name, Expr.Part (.ref name) r.body ∧ ∀ r' ∈ g.rules, r'.name ≠ name) ∧
    ∀ p, ofGrammar g = .ok p → ∀ file src : String,
      let lines := LineIndex.ofText file src.toList
      (∀ name c, Tries p.find lines (.ref p.start) ⟨0, src.toList⟩ (.ref name) c →
        ∃ body, p.find name = some body) ∧
      ∀ fault, p.parse file src = .error (.raised fault) →
        ∃ e c, Tries p.find lines (.ref p.start) ⟨0, src.toList⟩ e c ∧
          Raises p.find lines e c fault ∧ ∀ name, e ≠ .ref name := by
  refine ⟨refused_iff, fun p hp file src => ⟨fun name c ht => tried_ref hp ht, fun fault h => ?_⟩⟩
  obtain ⟨e, c, ht, hr⟩ := raised_tried h
  refine ⟨e, c, ht, hr, ?_⟩
  rintro name rfl
  cases hr with
  | undefinedRule hf =>
    obtain ⟨body, hb⟩ := tried_ref hp ht
    rw [hf] at hb
    cases hb

end Parser

end MessageIdl.Peg
