import MessageIdl.Peg.Parser
import MessageIdl.Proofs.Peg.Watching

/-!
# References of a checked grammar

A grammar that passes its check defines its start rule and every name that a rule refers to.

* `Expr.mem_refsOfParts`: the names that a row of expressions refers to.
* `Grammar.check_eq_ok_iff`: what the check says.
* `Parser.find_rule`: what a name means is the body of a rule of the name.
* `Parser.exists_start`, `Parser.exists_ref`: the parser of a checked grammar finds all its rules.
-/

namespace MessageIdl.Peg

variable {α : Type}

theorem mem_sortedSet {s : String} {xs : List String} : s ∈ sortedSet xs ↔ s ∈ xs := by
  induction xs with
  | nil => rfl
  | cons x xs ih => rw [sortedSet, List.foldr_cons, mem_insertSorted, List.mem_cons, ← ih]; rfl

/-- The names of a row of expressions are those of its members. -/
theorem Expr.mem_refsOfParts {name : String} {es : List (Expr α)} :
    name ∈ refsOfParts es ↔ ∃ e ∈ es, name ∈ e.refs := by
  induction es with
  | nil => simp [refsOfParts]
  | cons e es ih => simp [refsOfParts, ih]

namespace Grammar

variable {g : Grammar α}

theorem defines_iff {name : String} : g.defines name = true ↔ ∃ r ∈ g.rules, r.name = name := by
  simp only [defines, List.any_eq_true, beq_iff_eq]

/-- A rule misses no name if all names that it refers to are defined. -/
theorem missingRefs_eq_nil_iff {r : Rule α} :
    g.missingRefs r = [] ↔ ∀ name ∈ r.body.refs, g.defines name = true := by
  rw [List.eq_nil_iff_forall_not_mem]
  simp only [missingRefs, mem_sortedSet, List.mem_filter, not_and, Bool.not_eq_true']
  exact forall₂_congr fun name _ => by rw [Bool.not_eq_false]

/-- The check asks for the start rule and for every name that a rule refers to. -/
theorem check_eq_ok_iff : g.check = .ok () ↔
    g.defines g.start = true ∧ ∀ r ∈ g.rules, ∀ name ∈ r.body.refs, g.defines name = true := by
  unfold check
  split
  · rename_i hstart
    have hmissing (r : Rule α) : (!(g.missingRefs r).isEmpty) = true ↔ g.missingRefs r ≠ [] := by
      rw [Bool.not_eq_true', ← Bool.not_eq_true, List.isEmpty_iff]
    split
    · rename_i hnone
      refine iff_of_true rfl ⟨hstart, fun r hr => missingRefs_eq_nil_iff.mp ?_⟩
      exact not_not.mp fun hne => List.find?_eq_none.mp hnone r hr ((hmissing r).mpr hne)
    · rename_i r hsome
      refine iff_of_false nofun fun h => ?_
      have hfound := List.find?_some hsome
      have hne := (hmissing r).mp hfound
      exact hne (missingRefs_eq_nil_iff.mpr (h.2 r (List.mem_of_find?_eq_some hsome)))
  · rename_i hstart
    exact iff_of_false nofun fun h => hstart h.1

end Grammar

namespace Parser

variable {g : Grammar α} {p : Parser α}

/-- What a name means is the body of a rule of that name. -/
theorem find_rule {name : String} {body : Expr α} (h : p.find name = some body) :
    ∃ r ∈ p.latestFirst, r.name = name ∧ r.body = body := by
  obtain ⟨r, hr, hbody⟩ := Option.map_eq_some_iff.mp h
  have hname := List.find?_some hr
  exact ⟨r, List.mem_of_find?_eq_some hr, beq_iff_eq.mp hname, hbody⟩

/-- A name of a rule has a meaning. -/
theorem exists_find {name : String} (h : ∃ r ∈ p.latestFirst, r.name = name) :
    ∃ body, p.find name = some body := by
  obtain ⟨r, hr, hname⟩ := h
  have hsome : (p.latestFirst.find? (·.name == name)).isSome = true :=
    List.find?_isSome.mpr ⟨r, hr, beq_iff_eq.mpr hname⟩
  obtain ⟨r', hr'⟩ := Option.isSome_iff_exists.mp hsome
  exact ⟨r'.body, by rw [find, hr']; rfl⟩

theorem ofGrammar_eq_ok_iff : ofGrammar g = .ok p ↔
    g.check = .ok () ∧ p = { start := g.start, latestFirst := g.rules.reverse } := by
  unfold ofGrammar
  split
  · rename_i hcheck
    rw [Except.ok.injEq]
    exact ⟨fun h => ⟨hcheck, h.symm⟩, fun h => h.2.symm⟩
  · rename_i e hcheck
    refine iff_of_false nofun fun h => ?_
    rw [hcheck] at h
    cases h.1

variable (hg : ofGrammar g = .ok p)

include hg

theorem exists_find_of_defines {name : String} (h : g.defines name = true) :
    ∃ body, p.find name = some body := by
  obtain ⟨-, rfl⟩ := ofGrammar_eq_ok_iff.mp hg
  obtain ⟨r, hr, hname⟩ := Grammar.defines_iff.mp h
  exact exists_find ⟨r, List.mem_reverse.mpr hr, hname⟩

/-- The start rule of a checked grammar is found. -/
theorem exists_start : ∃ body, p.find p.start = some body := by
  obtain ⟨hcheck, hp⟩ := ofGrammar_eq_ok_iff.mp hg
  have hstart : p.start = g.start := by rw [hp]
  rw [hstart]
  exact exists_find_of_defines hg (Grammar.check_eq_ok_iff.mp hcheck).1

/-- What a rule of a checked grammar refers to is found. -/
theorem exists_ref {name : String} {body : Expr α} (h : p.find name = some body) :
    ∀ ref ∈ body.refs, ∃ body', p.find ref = some body' := by
  intro ref href
  obtain ⟨hcheck, hp⟩ := ofGrammar_eq_ok_iff.mp hg
  obtain ⟨r, hr, -, rfl⟩ := find_rule h
  have hmem : r ∈ g.rules := by
    rw [hp] at hr
    exact List.mem_reverse.mp hr
  exact exists_find_of_defines hg ((Grammar.check_eq_ok_iff.mp hcheck).2 r hmem ref href)

end Parser

end MessageIdl.Peg
