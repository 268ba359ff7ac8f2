import Mathlib.Data.List.Forall2
import MessageIdl.Peg.Productions
import MessageIdl.Proofs.Peg.Lookups
import MessageIdl.Proofs.Peg.Replacing

/-!
# Reordering alternatives

The order of alternatives matters to a choice unless each of them excludes the others.  Even then the
failures on the way depend on the order, because an alternative that matches keeps those behind it from
being tried.  What comes of this is overtaken: the failures of an excluded alternative lie in front of
the end of the match, and what fails later fails there or behind.

* `Excludes`, `Replaces.choice_perm`: alternatives that exclude each other can be reordered.
* `Replaces.rules`: rules that refer to earlier ones only can be replaced one at a time.
* `Parser.parse_eq_of_replaces`: a parser whose start rule is replaced gives the same trees and the
  same errors.
* `Grammar.parse_corresponds`: a grammar with other bodies does, if each stands for the one it replaces.
-/

namespace MessageIdl.Peg

open MessageIdl.Source

variable {α : Type}

/-! ### Alternatives that exclude each other -/

section Excludes

variable {find : String → Option (Expr α)} {lines : LineIndex} {a b : Expr α}
  {es es' : List (Expr α)}

/-- Where `a` does not fail, `b` does, and all that fails on its way does so in front of where `a`
ends. -/
def Excludes (find : String → Option (Expr α)) (lines : LineIndex) (a b : Expr α) : Prop :=
  ∀ c o, Yields find lines a c o → o ≠ .failed → Yields find lines b c .failed ∧
    ∀ stop v, o = .matched stop v → ∀ pos label, Misses find lines b c pos label → pos < stop.offset

/-- Each of two alternatives excludes the other one. -/
def Exclusive (find : String → Option (Expr α)) (lines : LineIndex) (a b : Expr α) : Prop :=
  Excludes find lines a b ∧ Excludes find lines b a

theorem Exclusive.symm (h : Exclusive find lines a b) : Exclusive find lines b a := And.symm h

/-- The failures of an excluded alternative, in front of those of the one that does not fail, count for
nothing. -/
theorem Excludes.agrees (h : Excludes find lines a b) {c : Cursor} {o : Outcome α}
    (yields : Yields find lines a c o) (present : o ≠ .failed) :
    o.Agrees (Misses find lines a c)
      (fun pos label => Misses find lines b c pos label ∨ Misses find lines a c pos label) := by
  cases o with
  | matched stop v =>
    refine Agree.of_behind fun pos label behind => (or_iff_right fun misses => ?_).symm
    exact absurd ((h c _ yields present).2 stop v rfl pos label misses) (Nat.not_lt.mpr behind)
  | failed => exact absurd rfl present
  | _ => trivial

/-- Two alternatives that exclude each other may be swapped. -/
theorem Replaces.choice_swap (exclusive : Exclusive find lines a b) :
    Replaces find find lines (.choice (a :: b :: es)) (.choice (b :: a :: es)) := by
  intro c o yields
  cases yields with
  | choice_commit first committed =>
    have second := (exclusive.1 c o first committed).1
    refine ⟨.choice_next second (.choice_commit first committed), ?_⟩
    refine (exclusive.1.agrees first committed).congr
      (fun _ _ => misses_choice_commit first committed) fun pos label => ?_
    rw [misses_choice_failed second, misses_choice_commit first committed]
  | choice_next first others =>
    cases others with
    | choice_commit second committed =>
      refine ⟨.choice_commit second committed, ?_⟩
      refine (exclusive.2.agrees second committed).symm.congr (fun pos label => ?_)
        fun _ _ => misses_choice_commit second committed
      rw [misses_choice_failed first, misses_choice_commit second committed]
    | choice_next second others =>
      refine ⟨.choice_next second (.choice_next first others), .of_iff fun pos label => ?_⟩
      rw [misses_choice_failed first, misses_choice_failed second, misses_choice_failed second,
        misses_choice_failed first, or_left_comm]

/-- **Alternatives that exclude each other may be reordered**, by induction on the permutation; the other
alternatives stay behind them. -/
theorem Replaces.choice_perm (perm : es.Perm es') (exclusive : es.Pairwise (Exclusive find lines))
    (others : List (Expr α)) :
    Replaces find find lines (.choice (es ++ others)) (.choice (es' ++ others)) := by
  induction perm with
  | nil => exact .refl
  | cons e _ ih => exact .choice_cons .refl (ih (List.pairwise_cons.mp exclusive).2)
  | swap a b es =>
    have pair := (List.pairwise_cons.mp exclusive).1 a List.mem_cons_self
    exact .choice_swap pair
  | trans first _ ih ih' =>
    exact (ih exclusive).trans (ih' ((first.pairwise_iff Exclusive.symm).mp exclusive))

end Excludes

/-! ### Rules that are replaced one at a time -/

theorem Expr.refs_boundBody_one (act : Action α) (e : Expr α) : (boundBody act [e]).refs = e.refs :=
  List.append_nil e.refs

/-- `body'` may stand for `body` in a rule: it does so under the rules as they were, it is plain, and it
refers to no other rules. -/
structure StandsFor (find : String → Option (Expr α)) (body body' : Expr α) : Prop where
  replaces : ∀ lines, Replaces find find lines body body'
  plain : body'.plain = true
  refs : ∀ ref ∈ body'.refs, ref ∈ body.refs

namespace StandsFor

variable {find : String → Option (Expr α)} {e e' : Expr α} {es es' : List (Expr α)}

theorem refl (plain : e.plain = true) : StandsFor find e e :=
  ⟨fun _ => .refl, plain, fun _ inside => inside⟩

/-- A choice stands for the same choice with its first alternatives in another order. -/
theorem choice_perm (perm : es.Perm es') (exclusive : ∀ lines, es.Pairwise (Exclusive find lines))
    {others : List (Expr α)} (plain : (Expr.choice (es ++ others)).plain = true) :
    StandsFor find (.choice (es ++ others)) (.choice (es' ++ others)) := by
  have all := perm.append_right others
  refine ⟨fun lines => .choice_perm perm (exclusive lines) others, ?_, fun ref inside => ?_⟩
  · obtain ⟨some, parts⟩ := Expr.plain_choice.mp plain
    refine Expr.plain_choice.mpr ⟨fun none => some ?_, fun e listed => parts e (all.mem_iff.mpr listed)⟩
    rw [none] at all
    exact all.eq_nil
  · obtain ⟨e, listed, inside⟩ := Expr.mem_refsOfParts.mp inside
    exact Expr.mem_refsOfParts.mpr ⟨e, all.mem_iff.mpr listed, inside⟩

/-- So does what an action is bound to. -/
theorem boundBody (rules : ∀ name body, find name = some body → body.plain = true) (act : Action α)
    (h : StandsFor find e e') : StandsFor find (boundBody act [e]) (boundBody act [e']) where
  replaces lines := .action act (.row_cons rules rfl (h.replaces lines) .refl)
  plain := Expr.plain_seq.mpr (List.forall_mem_singleton.mpr h.plain)
  refs ref inside := by
    rw [Expr.refs_boundBody_one] at inside ⊢
    exact h.refs ref inside

end StandsFor

/-- **Rules that refer to earlier ones only** can be replaced, by induction on their ranks. -/
theorem Replaces.rules {find find' : String → Option (Expr α)} {lines : LineIndex}
    {rank : String → Nat} (plain : ∀ name body, find name = some body → body.plain = true)
    (below : ∀ name body, find name = some body → ∀ ref ∈ body.refs, rank ref < rank name)
    (undefined : ∀ name, find name = none → find' name = none)
    (defined : ∀ name body, find name = some body →
      ∃ body', find' name = some body' ∧ StandsFor find body body') (name : String) :
    Replaces find find' lines (.ref name) (.ref name) := by
  generalize level : rank name = n
  induction n using Nat.strongRecOn generalizing name with
  | _ n ih =>
    cases found : find name with
    | none => exact ref_undefined found (undefined name found)
    | some body =>
      obtain ⟨body', found', stands⟩ := defined name body found
      refine ref found found' ((stands.replaces lines).trans (self plain body' stands.plain ?_))
      intro name' inside
      exact ih (rank name') (level ▸ below name body found name' (stands.refs name' inside)) name' rfl

/-- Rules that correspond one by one are found alike. -/
theorem Parser.find_corresponds {R : Expr α → Expr α → Prop} {start start' : String}
    {rules rules' : List (Rule α)}
    (h : List.Forall₂ (fun r r' => r.name = r'.name ∧ R r.body r'.body) rules rules')
    (name : String) :
    let p : Parser α := { start := start, latestFirst := rules }
    let p' : Parser α := { start := start', latestFirst := rules' }
    (p.find name = none → p'.find name = none) ∧
      ∀ body, p.find name = some body → ∃ body', p'.find name = some body' ∧ R body body' := by
  simp only [find]
  induction h with
  | nil => exact ⟨fun _ => rfl, by simp⟩
  | @cons r r' rules rules' first _ ih =>
    by_cases here : r.name = name
    · have here' : r'.name = name := first.1.symm.trans here
      rw [List.find?_cons_of_pos (by simpa using here), List.find?_cons_of_pos (by simpa using here')]
      refine ⟨by simp, fun body same => ?_⟩
      cases same
      exact ⟨r'.body, rfl, first.2⟩
    · have here' : ¬ r'.name = name := fun same => here (first.1.trans same)
      rw [List.find?_cons_of_neg (by simpa using here), List.find?_cons_of_neg (by simpa using here')]
      exact ih

/-! ### Parsers with other rules -/

/-- An expression whose references are defined has an outcome everywhere, without left recursion. -/
theorem Parser.exists_outcome {g : Grammar α} {p : Parser α} (checked : ofGrammar g = .ok p)
    (wellFounded : ∀ a, ¬ Relation.TransGen p.LeftReaches a a) (lines : LineIndex) {e : Expr α}
    (defined : ∀ ref ∈ e.refs, ∃ body, p.find ref = some body) (c : Cursor) :
    ∃ o, Yields p.find lines e c o := by
  let depth := p.latestFirst.length * (c.rest.length + 1)
  have answers (name : String) (inside : name ∈ e.refs) (c' : Cursor) (reached : c.Reaches c') :
      (callRule p.find lines depth name).AnswersAt c' := by
    obtain ⟨body, found⟩ := defined name inside
    have rank := leftRank_lt wellFounded (mem_names_of_find found)
    refine callRule_answersAt wellFounded lines (fun name body h => exists_ref checked h) depth name c'
      ⟨body, found⟩ ?_
    have rounds := Nat.mul_le_mul_left p.latestFirst.length reached.length_le
    show _ < p.latestFirst.length * (c.rest.length + 1)
    rw [Nat.mul_succ]
    omega
  have answer := Expr.run_answersAt e c
    ⟨fun name first => answers name first.mem_refs c (.refl c),
      fun name inside c' reached _ => answers name inside c' reached⟩ {}
  exact ⟨_, Expr.run_callRule_yields answer⟩

/-- The wording of an error depends on the furthest failures only. -/
theorem Watch.explain_congr {w w' : Watch} (furthest : w.furthest = w'.furthest)
    (expected : w.expected = w'.expected) (lines : LineIndex) (text : List Char) :
    w.explain lines text = w'.explain lines text := by
  simp only [explain, furthest, expected]

namespace Parser

/-- The start rule has the outcome `o` in front of a text. -/
def Starts (p : Parser α) (file src : String) (o : Outcome α) : Prop :=
  Yields p.find (LineIndex.ofText file src.toList) (.ref p.start) ⟨0, src.toList⟩ o

/-- The failures on the way of the start rule. -/
def StartMisses (p : Parser α) (file src : String) : Nat → String → Prop :=
  Misses p.find (LineIndex.ofText file src.toList) (.ref p.start) ⟨0, src.toList⟩

variable {p p' : Parser α} {file src : String} {o : Outcome α} {stop : Cursor} {v : Value α}

theorem starts (answers : (p.matchStart (LineIndex.ofText file src.toList) src.toList).1 ≠ .exhausted) :
    p.Starts file src (p.matchStart (LineIndex.ofText file src.toList) src.toList).1 := by
  have found := callRule_yields p.find (LineIndex.ofText file src.toList) (p.depth src.toList.length)
    p.start ⟨0, src.toList⟩ {}
  exact found.resolve_left answers

/-! How a parse goes on from the outcome of its start rule. -/

theorem parse_of_whole
    (first : (p.matchStart (LineIndex.ofText file src.toList) src.toList).1 = .matched stop v)
    (whole : stop.rest = []) : p.parse file src = .ok v := by
  rcases run : p.matchStart (LineIndex.ofText file src.toList) src.toList with ⟨o, w⟩
  rw [run] at first
  cases first
  simp only [parse, run, whole, List.isEmpty_nil, if_true]

theorem parse_of_raised {fault : Fault}
    (first : (p.matchStart (LineIndex.ofText file src.toList) src.toList).1 = .raised fault) :
    p.parse file src = .error (.raised fault) := by
  rcases run : p.matchStart (LineIndex.ofText file src.toList) src.toList with ⟨o, w⟩
  rw [run] at first
  cases first
  simp only [parse, run]

/-- Nothing was matched, or not all of the text. -/
def Leaves (o : Outcome α) : Prop := o = .failed ∨ ∃ stop v, o = .matched stop v ∧ stop.rest ≠ []

theorem parse_of_leaves
    (leaves : Leaves (p.matchStart (LineIndex.ofText file src.toList) src.toList).1) :
    ∃ err, p.parse file src = .error (.rejected err) := by
  rcases run : p.matchStart (LineIndex.ofText file src.toList) src.toList with ⟨o, w⟩
  rw [run] at leaves
  rcases leaves with fails | ⟨stop, v, matched, remains⟩
  · cases fails
    simp only [parse, run]
    exact ⟨_, rfl⟩
  · cases matched
    simp only [parse, run]
    exact ⟨_, if_neg fun nothing => remains (List.isEmpty_iff.mp nothing)⟩

/-! Which failures a parse has then. -/

theorem failure_of_failed (fails : p.Starts file src .failed) (pos : Nat) (label : String) :
    p.Failure file src pos label ↔ p.StartMisses file src pos label := by
  refine or_iff_left fun ⟨stop, v, matched, _⟩ => ?_
  cases matched.deterministic fails

theorem failure_of_matched (matched : p.Starts file src (.matched stop v)) (remains : stop.rest ≠ [])
    (pos : Nat) (label : String) : p.Failure file src pos label ↔
      p.StartMisses file src pos label ∨ pos = stop.offset ∧ label = endLabel := by
  refine or_congr_right ⟨fun ⟨stop', v', matched', _, there, told⟩ => ?_,
    fun ⟨there, told⟩ => ⟨stop, v, matched, remains, there, told⟩⟩
  cases matched.deterministic matched'
  exact ⟨there, told⟩

/-- The failures of two parses that reject a text agree without a reserve: what the start rule leaves
is itself told as a failure. -/
theorem failures_agree (first : p.Starts file src o) (first' : p'.Starts file src o)
    (agrees : o.Agrees (p.StartMisses file src) (p'.StartMisses file src)) (leaves : Leaves o) :
    Agree 0 (p.Failure file src) (p'.Failure file src) := by
  rcases leaves with rfl | ⟨stop, v, rfl, remains⟩
  · exact Agree.congr agrees (failure_of_failed first) (failure_of_failed first')
  · have ends : Agree stop.offset (fun pos label => pos = stop.offset ∧ label = endLabel)
        (fun pos label => pos = stop.offset ∧ label = endLabel) := .of_iff fun _ _ => Iff.rfl
    have settled := (Agree.or agrees ends).settle ⟨stop.offset, endLabel, Nat.le_refl _, .inr ⟨rfl, rfl⟩⟩
    exact settled.congr (failure_of_matched first remains) (failure_of_matched first' remains)

/-- **A parser whose start rule is replaced** gives the same values and the same errors, if both parsers
come to an end. -/
theorem parse_eq_of_replaces
    (replaces : Replaces p.find p'.find (LineIndex.ofText file src.toList) (.ref p.start) (.ref p'.start))
    (answers : (p.matchStart (LineIndex.ofText file src.toList) src.toList).1 ≠ .exhausted)
    (answers' : (p'.matchStart (LineIndex.ofText file src.toList) src.toList).1 ≠ .exhausted) :
    p'.parse file src = p.parse file src := by
  obtain ⟨first', agrees⟩ := replaces _ _ (starts answers)
  have same := (starts answers').deterministic first'
  have rejected_alike (leaves : Leaves (p.matchStart (LineIndex.ofText file src.toList) src.toList).1) :
      p'.parse file src = p.parse file src := by
    obtain ⟨err, rejected⟩ := parse_of_leaves leaves
    obtain ⟨err', rejected'⟩ := parse_of_leaves (same ▸ leaves)
    obtain ⟨w, failures, reports, told, rfl⟩ := exists_reports rejected
    obtain ⟨w', failures', reports', told', rfl⟩ := exists_reports rejected'
    have agree := (failures_agree (starts answers) first' agrees leaves).congr told told'
    obtain ⟨furthest, expected⟩ := Agree.furthest_eq reports reports' agree
    rw [rejected, rejected', Watch.explain_congr furthest expected]
  cases outcome : (p.matchStart (LineIndex.ofText file src.toList) src.toList).1 with
  | matched stop v =>
    by_cases whole : stop.rest = []
    · rw [parse_of_whole outcome whole, parse_of_whole (same.trans outcome) whole]
    · exact rejected_alike (.inr ⟨stop, v, outcome, whole⟩)
  | failed => exact rejected_alike (.inl outcome)
  | raised fault => rw [parse_of_raised outcome, parse_of_raised (same.trans outcome)]
  | exhausted => exact absurd outcome answers

end Parser

/-! ### Grammars with other bodies -/

namespace Grammar

variable {g g' : Grammar α}

/-- Rules that correspond one by one, each way. -/
theorem exists_corresponding {R : Rule α → Rule α → Prop} {rules rules' : List (Rule α)}
    (h : List.Forall₂ R rules rules') :
    (∀ r ∈ rules, ∃ r' ∈ rules', R r r') ∧ ∀ r' ∈ rules', ∃ r ∈ rules, R r r' := by
  induction h with
  | nil => exact ⟨nofun, nofun⟩
  | cons first _ ih =>
    refine ⟨List.forall_mem_cons.mpr ⟨⟨_, List.mem_cons_self, first⟩, fun r listed => ?_⟩,
      List.forall_mem_cons.mpr ⟨⟨_, List.mem_cons_self, first⟩, fun r' listed => ?_⟩⟩
    · obtain ⟨r', listed', related⟩ := ih.1 r listed
      exact ⟨r', List.mem_cons_of_mem _ listed', related⟩
    · obtain ⟨r, listed', related⟩ := ih.2 r' listed
      exact ⟨r, List.mem_cons_of_mem _ listed', related⟩

/-- A grammar whose rules have the same names and refer to no others passes the check as well. -/
theorem check_of_corresponds {R : Expr α → Expr α → Prop} (start : g'.start = g.start)
    (corresponds : List.Forall₂ (fun r r' => r.name = r'.name ∧ R r.body r'.body) g.rules g'.rules)
    (refs : ∀ body body', R body body' → ∀ ref ∈ body'.refs, ref ∈ body.refs)
    (checked : g.check = .ok ()) : g'.check = .ok () := by
  obtain ⟨there, back⟩ := exists_corresponding corresponds
  have defines (name : String) (defined : g.defines name = true) : g'.defines name = true := by
    obtain ⟨r, listed, rfl⟩ := defines_iff.mp defined
    obtain ⟨r', listed', named, -⟩ := there r listed
    exact defines_iff.mpr ⟨r', listed', named.symm⟩
  obtain ⟨first, others⟩ := check_eq_ok_iff.mp checked
  refine check_eq_ok_iff.mpr ⟨start ▸ defines g.start first, fun r' listed' ref inside => ?_⟩
  obtain ⟨r, listed, -, related⟩ := back r' listed'
  exact defines ref (others r listed ref (refs _ _ related ref inside))

/-- **A grammar with other bodies.**  Where rules refer to earlier ones only, and each body stands for the
one that it replaces, the parser of the new grammar gives the same values and the same errors. -/
theorem parse_corresponds {p : Parser α} {rank : String → Nat} (checked : Parser.ofGrammar g = .ok p)
    (plain : g.plain = true)
    (below : ∀ name body, p.find name = some body → ∀ ref ∈ body.refs, rank ref < rank name)
    (start : g'.start = g.start)
    (corresponds : List.Forall₂ (fun r r' => r.name = r'.name ∧ StandsFor p.find r.body r'.body)
      g.rules g'.rules) :
    ∃ p', Parser.ofGrammar g' = .ok p' ∧ ∀ file src, p'.parse file src = p.parse file src := by
  obtain ⟨accepted, same⟩ := Parser.ofGrammar_eq_ok_iff.mp checked
  let p' : Parser α := { start := g'.start, latestFirst := g'.rules.reverse }
  have checked' : Parser.ofGrammar g' = .ok p' := Parser.ofGrammar_eq_ok_iff.mpr
    ⟨check_of_corresponds start corresponds (fun _ _ stands => stands.refs) accepted, rfl⟩
  have found (name : String) : (p.find name = none → p'.find name = none) ∧
      ∀ body, p.find name = some body →
        ∃ body', p'.find name = some body' ∧ StandsFor p.find body body' := by
    subst same
    exact Parser.find_corresponds (List.rel_reverse corresponds) name
  have below' (name : String) (body' : Expr α) (h : p'.find name = some body') :
      ∀ ref ∈ body'.refs, rank ref < rank name := by
    intro ref inside
    cases known : p.find name with
    | none =>
      rw [(found name).1 known] at h
      cases h
    | some body =>
      obtain ⟨body'', h', stands⟩ := (found name).2 body known
      rw [h] at h'
      cases h'
      exact below name body known ref (stands.refs ref inside)
  refine ⟨p', checked', fun file src => ?_⟩
  have replaces : Replaces p.find p'.find (LineIndex.ofText file src.toList) (.ref p.start) _ :=
    .rules (plain_find checked plain) below (fun name => (found name).1) (fun name => (found name).2)
      p.start
  have same_start : p'.start = p.start := by
    rw [same]
    exact start
  exact Parser.parse_eq_of_replaces (same_start ▸ replaces)
    (Parser.matchStart_answers checked (Parser.not_leftRecursive_of_refs below) _ _)
    (Parser.matchStart_answers checked' (Parser.not_leftRecursive_of_refs below') _ _)

end Grammar

end MessageIdl.Peg
