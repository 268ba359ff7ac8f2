import Mathlib.Data.List.Induction
import MessageIdl.Peg.Statements
import MessageIdl.Proofs.Peg.References

/-!
# What statements add to a grammar

A right-hand side stands for rows of symbols, and at most one action is written in it where it makes sense.
So an accepted statement adds one alternative for each of its rows, and productions are told by the list of
the alternatives that were added.

* `RightSide.rows`, `RightSide.actions`: what is written in a right-hand side; `RightSide.rows_eval`: the
  phrase of a right-hand side that makes sense has the same rows and actions.
* `Statement.perform_cases`: a statement is refused and changes nothing, or it adds its alternatives.
* `Productions.names_addAll`, `Productions.alternatives_addAll`: heads in the order of their first
  alternatives, alternatives of a head in the order in which they were added.
* `RightSide.eval_ands`, `RightSide.eval_ors`: an action may stand behind the last symbol or behind all.
* `RightSide.marked_means_iff`: a mark on a symbol is a symbol, so marks may stand in all of these.
* `Statement.performAll_builds`: the grammar of a sequence of statements.
-/

namespace MessageIdl.Peg

variable {α : Type}

/-! ### Rows and actions -/

/-- What a mark makes of a phrase: the marked symbol of a symbol. -/
theorem Mark.apply_eq_ok_iff {m : Mark} {p q : Phrase α} :
    m.apply p = .ok q ↔ ∃ e, p.symbol? = some e ∧ q = .symbol (m.on e) := by
  have hmap (f : Expr α → Expr α) :
      p.mapSymbol f = .ok q ↔ ∃ e, p.symbol? = some e ∧ q = .symbol (f e) := by
    cases hp : p.symbol? <;> simp [Phrase.mapSymbol, hp, eq_comm]
  cases m <;> exact hmap _

namespace Phrase

/-- The rows of symbols in a phrase. -/
def rows : Phrase α → List (List (Expr α))
  | .symbol e => [[e]]
  | .rule name => [[.ref name]]
  | .sequence items => [items]
  | .bound items _ => [items]
  | .alternatives bodies => bodies
  | .boundAlternatives bodies _ => bodies

/-- The action that a phrase is bound to, if any. -/
def actions : Phrase α → List (Action α)
  | .bound _ act => [act]
  | .boundAlternatives _ act => [act]
  | _ => []

variable {left right p q : Phrase α} {act : Action α}

theorem rows_and (h : left.and right = .ok p) :
    p.rows = (left.rows.flatMap fun row => right.rows.map (row ++ ·)) ∧
      p.actions = left.actions ++ right.actions := by
  cases left <;> cases right <;> cases h <;> exact ⟨rfl, rfl⟩

theorem rows_or (h : left.or right = .ok p) :
    p.rows = left.rows ++ right.rows ∧ p.actions = left.actions ++ right.actions := by
  cases left <;> cases right <;> cases h <;> exact ⟨rfl, rfl⟩

theorem rows_bind (h : q.bind act = .ok p) : p.rows = q.rows ∧ p.actions = q.actions ++ [act] := by
  cases q <;> cases h <;> exact ⟨rfl, rfl⟩

theorem rows_apply {m : Mark} (h : m.apply q = .ok p) :
    p.rows = q.rows.map (List.map m.on) ∧ p.actions = q.actions := by
  obtain ⟨e, he, rfl⟩ := Mark.apply_eq_ok_iff.mp h
  cases q <;> cases he <;> exact ⟨rfl, rfl⟩

end Phrase

namespace RightSide

/-- The rows of symbols that a right-hand side stands for: its alternatives, as they are written. -/
def rows : RightSide α → List (List (Expr α))
  | .symbol e => [[e]]
  | .rule name => [[.ref name]]
  | .endOfInput => [[.endOfInput]]
  | .marked m side => side.rows.map (List.map m.on)
  | .and left right => left.rows.flatMap fun row => right.rows.map (row ++ ·)
  | .or left right => left.rows ++ right.rows
  | .bind side _ => side.rows

/-- The actions that are written in a right-hand side. -/
def actions : RightSide α → List (Action α)
  | .symbol _ => []
  | .rule _ => []
  | .endOfInput => []
  | .marked _ side => side.actions
  | .and left right => left.actions ++ right.actions
  | .or left right => left.actions ++ right.actions
  | .bind side act => side.actions ++ [act]

theorem rows_ne_nil (side : RightSide α) : side.rows ≠ [] := by
  induction side with
  | symbol e | rule name | endOfInput => exact List.cons_ne_nil _ _
  | marked m side ih => rwa [rows, ne_eq, List.map_eq_nil_iff]
  | and left right ihleft ihright =>
    obtain ⟨row, hrow⟩ := List.exists_mem_of_ne_nil _ ihleft
    obtain ⟨more, hmore⟩ := List.exists_mem_of_ne_nil _ ihright
    exact List.ne_nil_of_mem (List.mem_flatMap.mpr ⟨row, hrow, List.mem_map_of_mem hmore⟩)
  | or left right ihleft ihright => exact List.append_ne_nil_of_left_ne_nil ihleft _
  | bind side act ih => exact ih

/-- **A right-hand side that makes sense** has the rows and the actions that are written in it. -/
theorem rows_eval {side : RightSide α} {p : Phrase α} (h : side.eval = .ok p) :
    p.rows = side.rows ∧ p.actions = side.actions := by
  induction side generalizing p with
  | symbol e | rule name | endOfInput =>
    cases h
    exact ⟨rfl, rfl⟩
  | marked m side ih =>
    obtain ⟨q, hq, hp⟩ := of_bind_ok h
    obtain ⟨hrows, hactions⟩ := ih hq
    obtain ⟨hrows', hactions'⟩ := Phrase.rows_apply hp
    exact ⟨by rw [hrows', hrows, rows], by rw [hactions', hactions, actions]⟩
  | and left right ihleft ihright =>
    obtain ⟨l, hl, h⟩ := of_bind_ok h
    obtain ⟨r, hr, hp⟩ := of_bind_ok h
    obtain ⟨hrows, hactions⟩ := Phrase.rows_and hp
    rw [(ihleft hl).1, (ihright hr).1] at hrows
    rw [(ihleft hl).2, (ihright hr).2] at hactions
    exact ⟨hrows, hactions⟩
  | or left right ihleft ihright =>
    obtain ⟨l, hl, h⟩ := of_bind_ok h
    obtain ⟨r, hr, hp⟩ := of_bind_ok h
    obtain ⟨hrows, hactions⟩ := Phrase.rows_or hp
    rw [(ihleft hl).1, (ihright hr).1] at hrows
    rw [(ihleft hl).2, (ihright hr).2] at hactions
    exact ⟨hrows, hactions⟩
  | bind side act ih =>
    obtain ⟨q, hq, hp⟩ := of_bind_ok h
    obtain ⟨hrows, hactions⟩ := Phrase.rows_bind hp
    exact ⟨hrows.trans (ih hq).1, by rw [hactions, (ih hq).2, actions]⟩

end RightSide

/-! ### Productions by what was added -/

namespace Productions

variable {ps : Productions α} {name other : String} {body : Expr α} {p : Phrase α}

/-- The heads, in their order. -/
def names (ps : Productions α) : List String := ps.heads.map (·.1)

/-- Alternatives for several heads, one after the other. -/
def addAll (ps : Productions α) (added : List (String × Expr α)) : Productions α :=
  added.foldl (fun ps a => ps.add a.1 a.2) ps

/-- The alternatives of a head in a list of alternatives for several heads. -/
def bodiesOf (added : List (String × Expr α)) (name : String) : List (Expr α) :=
  (added.filter fun a => a.1 = name).map (·.2)

theorem names_add : (ps.add name body).names = if name ∈ ps.names then ps.names else ps.names ++ [name] := by
  obtain ⟨heads⟩ := ps
  simp only [add, names]
  induction heads with
  | nil => rfl
  | cons first rest ih =>
    obtain ⟨head, bodies⟩ := first
    rw [addTo]
    by_cases h : head = name
    · simp [h]
    · rw [if_neg h, List.map_cons, ih]
      by_cases hrest : name ∈ rest.map (·.1) <;> simp [hrest, Ne.symm h]

theorem alternatives_add : (ps.add name body).alternatives other
    = ps.alternatives other ++ if name = other then [body] else [] := by
  obtain ⟨heads⟩ := ps
  simp only [add, alternatives]
  induction heads with
  | nil => by_cases h : name = other <;> simp [addTo, h]
  | cons first rest ih =>
    obtain ⟨head, bodies⟩ := first
    rw [addTo]
    by_cases h : head = name
    · subst h
      by_cases ho : head = other <;> simp [ho]
    · rw [if_neg h]
      by_cases ho : head = other
      · simp [ho, Ne.symm (ho ▸ h : other ≠ name)]
      · simpa [ho] using ih

/-- Productions without two heads of one name are told by their heads and the alternatives of each. -/
theorem heads_eq (h : ps.names.Nodup) : ps.heads = ps.names.map fun name => (name, ps.alternatives name) := by
  obtain ⟨heads⟩ := ps
  simp only [names, alternatives] at h ⊢
  induction heads with
  | nil => rfl
  | cons first rest ih =>
    obtain ⟨head, bodies⟩ := first
    obtain ⟨hfirst, hrest⟩ := List.nodup_cons.mp h
    rw [List.map_cons, List.map_cons, List.find?_cons_of_pos (by simp)]
    congr 1
    refine (ih hrest).trans (List.map_congr_left fun name hname => ?_)
    have hne : head ≠ name := fun h => hfirst (h ▸ hname)
    rw [List.find?_cons_of_neg (by simpa using hne)]

theorem addAll_append (added more : List (String × Expr α)) :
    ps.addAll (added ++ more) = (ps.addAll added).addAll more :=
  List.foldl_append

/-- The alternatives of a head stand in the order in which they were added. -/
theorem alternatives_addAll (added : List (String × Expr α)) :
    (ps.addAll added).alternatives name = ps.alternatives name ++ bodiesOf added name := by
  induction added generalizing ps with
  | nil => exact (List.append_nil _).symm
  | cons a added ih =>
    rw [addAll, List.foldl_cons, ← addAll, ih, alternatives_add, List.append_assoc, bodiesOf, bodiesOf]
    by_cases h : a.1 = name <;> simp [h]

theorem eraseDups_concat (names : List String) (name : String) :
    (names ++ [name]).eraseDups = if name ∈ names then names.eraseDups else names.eraseDups ++ [name] := by
  rw [List.eraseDups_append]
  by_cases h : name ∈ names <;> simp [List.removeAll, List.eraseDups_cons, h]

theorem nodup_eraseDups (names : List String) : names.eraseDups.Nodup := by
  induction names using List.reverseRecOn with
  | nil => exact List.nodup_nil
  | append_singleton names name ih =>
    rw [eraseDups_concat]
    split
    · exact ih
    · rename_i h
      rw [← List.concat_eq_append]
      exact ih.concat (mt List.mem_eraseDups.mp h)

/-- Heads stand in the order of their first alternatives. -/
theorem names_addAll (added : List (String × Expr α)) :
    (addAll {} added).names = (added.map (·.1)).eraseDups := by
  induction added using List.reverseRecOn with
  | nil => rfl
  | append_singleton added a ih =>
    rw [addAll_append, addAll, List.foldl_cons, List.foldl_nil, names_add, ih, List.map_append,
      List.map_singleton, eraseDups_concat]
    simp only [List.mem_eraseDups]

theorem append_ref (bodies : List (Expr α)) :
    ps.append (.ref name) bodies = (none, ps.addAll (bodies.map (name, ·))) := by
  induction bodies generalizing ps with
  | nil => rfl
  | cons body more ih => exact ih

/-- Without a rule as the head the first alternative is refused. -/
theorem append_not_ref {head : Expr α} (h : ∀ name, head ≠ .ref name) {bodies : List (Expr α)}
    (hbodies : bodies ≠ []) : ps.append head bodies = (some .headNotARule, ps) := by
  obtain ⟨body, more, rfl⟩ := List.exists_cons_of_ne_nil hbodies
  cases head with
  | ref name => exact absurd rfl (h name)
  | _ => rfl

/-- Only a phrase with an action stands for alternatives. -/
theorem bodies_eq_ok_iff {new : List (Expr α)} :
    bodies p = .ok new ↔ ∃ act, p.actions = [act] ∧ new = p.rows.map (boundBody act) := by
  cases p <;> simp [bodies, Phrase.actions, Phrase.rows, eq_comm]

/-- Alternatives may as well be put there by two statements. -/
theorem append_cons (head body : Expr α) (more : List (Expr α)) :
    (ps.append head (body :: more)).2 = ((ps.append head [body]).2.append head more).2 := by
  cases head with
  | ref name => rfl
  | _ => cases more <;> rfl

end Productions

/-! ### One statement and many -/

namespace Statement

variable {st : Statement α} {ps : Productions α}

/-- What is written in a statement: for its head, one alternative for each row of its right-hand side. -/
def alternatives (st : Statement α) : List (String × Expr α) :=
  match st.head, st.right.actions with
  | .ref name, [act] => st.right.rows.map fun row => (name, boundBody act row)
  | _, _ => []

/-- Whether a statement is carried out. -/
def accepted (st : Statement α) : Bool := (st.perform {}).1.isNone

/-- The alternatives that statements add: those of the statements that are carried out. -/
def added (sts : List (Statement α)) : List (String × Expr α) :=
  (sts.filter accepted).flatMap alternatives

/-- The alternatives of a right-hand side are its rows, of which there is at least one, each with the one
action that is written in it. -/
theorem of_bodies_ok {side : RightSide α} {new : List (Expr α)}
    (h : (side.eval >>= Productions.bodies) = .ok new) :
    ∃ act, side.actions = [act] ∧ new = side.rows.map (boundBody act) ∧ new ≠ [] := by
  obtain ⟨phrase, heval, hbodies⟩ := of_bind_ok h
  obtain ⟨hrows, hactions⟩ := RightSide.rows_eval heval
  obtain ⟨act, hact, rfl⟩ := Productions.bodies_eq_ok_iff.mp hbodies
  rw [hactions] at hact
  rw [hrows]
  refine ⟨act, hact, rfl, ?_⟩
  rw [ne_eq, List.map_eq_nil_iff]
  exact side.rows_ne_nil

theorem perform_error {e : PhraseError} (h : (st.right.eval >>= Productions.bodies) = .error e) :
    st.perform ps = (some e, ps) := by
  unfold perform
  cases heval : st.right.eval with
  | error e' =>
    rw [heval] at h
    cases h
    rfl
  | ok phrase =>
    rw [heval] at h
    simp only [show Productions.bodies phrase = .error e from h]

theorem perform_ok {new : List (Expr α)} (h : (st.right.eval >>= Productions.bodies) = .ok new) :
    st.perform ps = ps.append st.head new := by
  obtain ⟨phrase, heval, hbodies⟩ := of_bind_ok h
  simp only [perform, heval, hbodies]

/-- **One statement.**  It is refused and changes nothing, or it has a rule as its head and one action in its
right-hand side, and it adds what is written in it. -/
theorem perform_cases (st : Statement α) :
    (∃ e, ∀ ps, st.perform ps = (some e, ps)) ∨
      (∃ name act, st.head = .ref name ∧ st.right.actions = [act]) ∧
        ∀ ps, st.perform ps = (none, ps.addAll st.alternatives) := by
  cases hbodies : st.right.eval >>= Productions.bodies with
  | error e => exact .inl ⟨e, fun ps => perform_error hbodies⟩
  | ok new =>
    obtain ⟨act, hact, rfl, hne⟩ := of_bodies_ok hbodies
    by_cases hhead : ∃ name, st.head = .ref name
    · obtain ⟨name, hname⟩ := hhead
      refine .inr ⟨⟨name, act, hname, hact⟩, fun ps => ?_⟩
      rw [perform_ok hbodies, hname, Productions.append_ref, List.map_map, alternatives, hname, hact]
      rfl
    · refine .inl ⟨.headNotARule, fun ps => ?_⟩
      rw [perform_ok hbodies]
      exact Productions.append_not_ref (fun name hname => hhead ⟨name, hname⟩) hne

/-- A statement is carried out in full or not at all: it is one production. -/
theorem perform_eq_define (st : Statement α) (ps : Productions α) : st.perform ps
    = match st.right.eval >>= ps.define st.head with
      | .error e => (some e, ps)
      | .ok ps' => (none, ps') := by
  cases hbodies : st.right.eval >>= Productions.bodies with
  | error e =>
    rw [perform_error hbodies]
    cases heval : st.right.eval with
    | error e' =>
      rw [heval] at hbodies
      cases hbodies
      rfl
    | ok phrase =>
      have hphrase : Productions.bodies phrase = .error e := by
        rw [heval] at hbodies
        exact hbodies
      simp only [bind, Except.bind, Productions.define, hphrase]
  | ok new =>
    obtain ⟨-, -, -, hne⟩ := of_bodies_ok hbodies
    rw [perform_ok hbodies]
    obtain ⟨phrase, heval, hphrase⟩ := of_bind_ok hbodies
    simp only [heval, bind, Except.bind, Productions.define, hphrase]
    cases st.head with
    | ref name => simp only [Productions.append_ref, Productions.addAll, List.foldl_map]
    | _ => exact Productions.append_not_ref (fun name h => by cases h) hne

/-- **Many statements** add the alternatives of those that are carried out. -/
theorem performAll_eq (sts : List (Statement α)) : performAll sts ps = ps.addAll (added sts) := by
  induction sts generalizing ps with
  | nil => rfl
  | cons st sts ih =>
    rw [performAll, List.foldl_cons, ← performAll, ih]
    rcases perform_cases st with ⟨e, hst⟩ | ⟨-, hst⟩
    · have haccepted : st.accepted = false := by rw [accepted, hst]; rfl
      rw [hst, added, added, List.filter_cons_of_neg (by simp [haccepted])]
    · have haccepted : st.accepted = true := by rw [accepted, hst]; rfl
      rw [hst, added, added, List.filter_cons_of_pos haccepted, List.flatMap_cons,
        Productions.addAll_append]

end Statement

/-! ### The grammar of statements -/

/-- A grammar that lists each head once, in the order of the first alternatives that were added, with its
only alternative or the choice between all of them in the order in which they were added. -/
structure Grammar.Lists (g : Grammar α) (added : List (String × Expr α)) : Prop where
  rules_eq : g.rules = (added.map (·.1)).eraseDups.map fun name =>
    { name := name, body := ruleBody (Productions.bodiesOf added name) }
  nodup : (g.rules.map (·.name)).Nodup
  find_eq : ∀ p, Parser.ofGrammar g = .ok p → ∀ name, p.find name = (g.rule? name).map (·.body)

/-- Where no two rules have the same name, the first rule of a name is also the last one. -/
theorem find?_reverse {rules : List (Rule α)} (h : (rules.map (·.name)).Nodup) (name : String) :
    rules.reverse.find? (·.name == name) = rules.find? (·.name == name) := by
  induction rules with
  | nil => rfl
  | cons r rules ih =>
    obtain ⟨hr, hrules⟩ := List.nodup_cons.mp h
    rw [List.reverse_cons, List.find?_append, ih hrules]
    by_cases hname : r.name = name
    · have hnone : rules.find? (·.name == name) = none := List.find?_eq_none.mpr fun r' hr' h' =>
        hr (List.mem_map.mpr ⟨r', hr', (beq_iff_eq.mp h').trans hname.symm⟩)
      simp [hname, hnone]
    · simp [hname]

theorem Grammar.find_eq_rule? {g : Grammar α} (h : (g.rules.map (·.name)).Nodup) {p : Parser α}
    (hp : Parser.ofGrammar g = .ok p) (name : String) : p.find name = (g.rule? name).map (·.body) := by
  obtain ⟨-, rfl⟩ := Parser.ofGrammar_eq_ok_iff.mp hp
  rw [Parser.find, rule?, find?_reverse h]

/-- The grammar of the productions that were added. -/
theorem Productions.grammar_addAll (added : List (String × Expr α)) (start : String) :
    ∃ g, (addAll {} added).grammar (.ref start) = .ok g ∧ g.start = start ∧ g.Lists added := by
  have hnames : (addAll {} added).names = (added.map (·.1)).eraseDups := names_addAll added
  have hnodup : (addAll {} added).names.Nodup := hnames ▸ nodup_eraseDups _
  have hrules : ((addAll {} added).heads.map fun h => ({ name := h.1, body := ruleBody h.2 } : Rule α))
      = (added.map (·.1)).eraseDups.map fun name => { name := name, body := ruleBody (bodiesOf added name) } := by
    rw [heads_eq hnodup, hnames, List.map_map]
    refine List.map_congr_left fun name _ => ?_
    rw [Function.comp_apply, alternatives_addAll]
    rfl
  have hdistinct : (((addAll {} added).heads.map fun h =>
      ({ name := h.1, body := ruleBody h.2 } : Rule α)).map (·.name)).Nodup := by
    rw [List.map_map]
    exact hnodup
  exact ⟨_, rfl, rfl, hrules, hdistinct, fun p hp => Grammar.find_eq_rule? hdistinct hp⟩

/-! ### Where an action may stand -/

namespace Phrase

variable {p q : Phrase α} {e : Expr α} {items more : List (Expr α)} {bodies : List (List (Expr α))}
  {act : Action α}

/-- A phrase that a symbol can follow: a symbol, or the row of some. -/
inductive IsRow : Phrase α → List (Expr α) → Prop where
  | symbol {p : Phrase α} {e : Expr α} : p.symbol? = some e → IsRow p [e]
  | sequence {items : List (Expr α)} : IsRow (.sequence items) items

/-- A phrase that another symbol can be an alternative to: a symbol, or the choice between some. -/
inductive IsChoice : Phrase α → List (List (Expr α)) → Prop where
  | symbol {p : Phrase α} {e : Expr α} : p.symbol? = some e → IsChoice p [[e]]
  | alternatives {bodies : List (List (Expr α))} : IsChoice (.alternatives bodies) bodies

theorem bind_symbol (h : p.symbol? = some e) : p.bind act = .ok (.bound [e] act) := by
  cases p <;> cases h <;> rfl

theorem IsRow.and_symbol (h : p.IsRow items) (hq : q.symbol? = some e) :
    p.and q = .ok (.sequence (items ++ [e])) := by
  cases h with
  | symbol h => cases p <;> cases h <;> cases q <;> cases hq <;> rfl
  | sequence => cases q <;> cases hq <;> rfl

theorem IsRow.and_bound (h : p.IsRow items) :
    p.and (.bound more act) = .ok (.bound (items ++ more) act) := by
  cases h with
  | symbol h => cases p <;> cases h <;> rfl
  | sequence => rfl

theorem IsChoice.or_symbol (h : p.IsChoice bodies) (hq : q.symbol? = some e) :
    p.or q = .ok (.alternatives (bodies ++ [[e]])) := by
  cases h with
  | symbol h => cases p <;> cases h <;> cases q <;> cases hq <;> rfl
  | alternatives => cases q <;> cases hq <;> rfl

theorem IsChoice.or_bound (h : p.IsChoice bodies) :
    p.or (.bound more act) = .ok (.boundAlternatives (bodies ++ [more]) act) := by
  cases h with
  | symbol h => cases p <;> cases h <;> rfl
  | alternatives => rfl

end Phrase

namespace RightSide

variable {init sides : List (RightSide α)} {first last side : RightSide α} {es : List (Expr α)} {e : Expr α}

/-- A right-hand side makes sense and is the symbol for an expression. -/
def Means (side : RightSide α) (e : Expr α) : Prop := ∃ p, side.eval = .ok p ∧ p.symbol? = some e

/-- A right-hand side that is a symbol. -/
def IsSymbol (side : RightSide α) : Prop := ∃ e, side.Means e

/-- Some right-hand sides with "and" between them. -/
def ands : List (RightSide α) → RightSide α → RightSide α
  | [], last => last
  | first :: more, last => .and (more.foldl .and first) last

/-- Some right-hand sides with "or" between them. -/
def ors : List (RightSide α) → RightSide α → RightSide α
  | [], last => last
  | first :: more, last => .or (more.foldl .or first) last

theorem exists_means (h : ∀ side ∈ sides, side.IsSymbol) : ∃ es, List.Forall₂ Means sides es := by
  induction sides with
  | nil => exact ⟨[], .nil⟩
  | cons side sides ih =>
    obtain ⟨hside, hsides⟩ := List.forall_mem_cons.mp h
    obtain ⟨e, he⟩ := hside
    obtain ⟨es, hes⟩ := ih hsides
    exact ⟨e :: es, .cons he hes⟩

/-- An action behind a symbol. -/
theorem eval_bind_symbol (act : Action α) (h : side.Means e) : (bind side act).eval = .ok (.bound [e] act) := by
  obtain ⟨p, hp, he⟩ := h
  rw [eval, hp]
  exact Phrase.bind_symbol he

theorem eval_foldl_and {p : Phrase α} {items : List (Expr α)} (hfirst : first.eval = .ok p)
    (hp : p.IsRow items) (hsides : List.Forall₂ Means sides es) :
    ∃ q, (sides.foldl .and first).eval = .ok q ∧ q.IsRow (items ++ es) := by
  induction hsides generalizing first p items with
  | nil => exact ⟨p, hfirst, (List.append_nil items).symm ▸ hp⟩
  | @cons side e sides es hside _ ih =>
    obtain ⟨q, hq, he⟩ := hside
    have hand : (and first side).eval = .ok (.sequence (items ++ [e])) := by
      rw [eval, hfirst, hq]
      exact hp.and_symbol he
    rw [List.foldl_cons, ← List.singleton_append, ← List.append_assoc]
    exact ih hand .sequence

theorem eval_foldl_or {p : Phrase α} {bodies : List (List (Expr α))} (hfirst : first.eval = .ok p)
    (hp : p.IsChoice bodies) (hsides : List.Forall₂ Means sides es) :
    ∃ q, (sides.foldl .or first).eval = .ok q ∧ q.IsChoice (bodies ++ es.map ([·])) := by
  induction hsides generalizing first p bodies with
  | nil => exact ⟨p, hfirst, (List.append_nil bodies).symm ▸ hp⟩
  | @cons side e sides es hside _ ih =>
    obtain ⟨q, hq, he⟩ := hside
    have hor : (or first side).eval = .ok (.alternatives (bodies ++ [[e]])) := by
      rw [eval, hfirst, hq]
      exact hp.or_symbol he
    rw [List.foldl_cons, List.map_cons, ← List.singleton_append, ← List.append_assoc]
    exact ih hor .alternatives

/-- An action behind the last symbol of a row, or behind the whole row. -/
theorem eval_ands (act : Action α) (hinit : List.Forall₂ Means init es) (hlast : last.Means e) :
    (ands init (.bind last act)).eval = .ok (.bound (es ++ [e]) act) ∧
      (bind (ands init last) act).eval = .ok (.bound (es ++ [e]) act) := by
  cases hinit with
  | nil => exact ⟨eval_bind_symbol act hlast, eval_bind_symbol act hlast⟩
  | @cons first e' more es hfirst hmore =>
    obtain ⟨p, hp, he'⟩ := hfirst
    obtain ⟨q, hq, hrow⟩ := eval_foldl_and hp (.symbol he') hmore
    have hbind := eval_bind_symbol act hlast
    obtain ⟨r, hr, he⟩ := hlast
    constructor
    · rw [ands, eval, hq, hbind]
      exact hrow.and_bound
    · rw [eval, ands, eval, hq, hr]
      exact congrArg (· >>= Phrase.bind act) (hrow.and_symbol he)

/-- An action behind the last of some alternatives, or behind all of them. -/
theorem eval_ors (act : Action α) (hinit : List.Forall₂ Means init es) (hlast : last.Means e) :
    ∃ p, (ors init (.bind last act)).eval = .ok p ∧ (bind (ors init last) act).eval = .ok p ∧
      Productions.bodies p = .ok ((es ++ [e]).map fun e => boundBody act [e]) := by
  have hbind := eval_bind_symbol act hlast
  cases hinit with
  | nil => exact ⟨_, hbind, hbind, rfl⟩
  | @cons first e' more es hfirst hmore =>
    obtain ⟨p, hp, he'⟩ := hfirst
    obtain ⟨q, hq, hchoice⟩ := eval_foldl_or hp (.symbol he') hmore
    obtain ⟨r, hr, he⟩ := hlast
    refine ⟨.boundAlternatives ([[e']] ++ es.map ([·]) ++ [[e]]) act, ?_, ?_, ?_⟩
    · rw [ors, eval, hq, hbind]
      exact hchoice.or_bound
    · rw [eval, ors, eval, hq, hr]
      exact congrArg (· >>= Phrase.bind act) (hchoice.or_symbol he)
    · simp [Productions.bodies]

end RightSide

namespace Statement

variable {head : Expr α} {sides : List (RightSide α)} {es : List (Expr α)} {act : Action α}

/-- A statement for each of some symbols. -/
theorem performAll_each (h : List.Forall₂ RightSide.Means sides es) (ps : Productions α) :
    performAll (sides.map fun side => { head := head, right := .bind side act }) ps
      = (ps.append head (es.map fun e => boundBody act [e])).2 := by
  induction h generalizing ps with
  | nil => rfl
  | @cons side e sides es hside _ ih =>
    have hone : (perform { head := head, right := .bind side act } ps).2
        = (ps.append head [boundBody act [e]]).2 := by
      rw [perform, RightSide.eval_bind_symbol act hside]
      rfl
    rw [List.map_cons, List.map_cons, Productions.append_cons, performAll, List.foldl_cons, ← performAll,
      hone, ih]

end Statement

/-- An action behind the last symbol is an action behind all of them, as a row and as alternatives, and
alternatives that share an action can be given in one statement or one by one. -/
structure SharesAction (init : List (RightSide α)) (last : RightSide α) (act : Action α) : Prop where
  row : (RightSide.ands init (.bind last act)).eval = (RightSide.bind (.ands init last) act).eval
  choice : ∀ head ps, Statement.performAll [{ head, right := .ors init (.bind last act) }] ps
    = Statement.performAll [{ head, right := .bind (.ors init last) act }] ps
  each : ∀ head ps, Statement.performAll [{ head, right := .ors init (.bind last act) }] ps
    = Statement.performAll ((init ++ [last]).map fun side => { head, right := .bind side act }) ps

theorem sharesAction {init : List (RightSide α)} {last : RightSide α} (act : Action α)
    (h : ∀ side ∈ init ++ [last], side.IsSymbol) : SharesAction init last act := by
  obtain ⟨hinit, hlast⟩ := List.forall_mem_append.mp h
  obtain ⟨es, hes⟩ := RightSide.exists_means hinit
  obtain ⟨e, he⟩ := hlast last (List.mem_singleton_self last)
  obtain ⟨p, hors, hbind, hbodies⟩ := RightSide.eval_ors act hes he
  have hperform {head : Expr α} {right : RightSide α} (hright : right.eval = .ok p) (ps : Productions α) :
      Statement.performAll [{ head, right }] ps
        = (ps.append head ((es ++ [e]).map fun e => boundBody act [e])).2 := by
    simp only [Statement.performAll, List.foldl_cons, List.foldl_nil, Statement.perform, hright, hbodies]
  constructor
  case row => exact (RightSide.eval_ands act hes he).1.trans (RightSide.eval_ands act hes he).2.symm
  case choice => exact fun head ps => (hperform hors ps).trans (hperform hbind ps).symm
  case each =>
    intro head ps
    rw [hperform hors, Statement.performAll_each (List.rel_append hes (.cons he .nil))]

/-! ### The grammar that was written -/

/-- **A mark on a symbol is a symbol**, and a mark on anything else makes no sense. -/
theorem RightSide.marked_means_iff {m : Mark} {side : RightSide α} {e : Expr α} :
    (marked m side).Means e ↔ ∃ e', side.Means e' ∧ e = m.on e' := by
  constructor
  · rintro ⟨q, hq, he⟩
    obtain ⟨p, hp, hq⟩ := of_bind_ok hq
    obtain ⟨e', he', rfl⟩ := Mark.apply_eq_ok_iff.mp hq
    exact ⟨e', ⟨p, hp, he'⟩, (Option.some.inj he).symm⟩
  · rintro ⟨e', ⟨p, hp, he'⟩, rfl⟩
    refine ⟨.symbol (m.on e'), ?_, rfl⟩
    rw [eval, hp]
    exact Mark.apply_eq_ok_iff.mpr ⟨e', he', rfl⟩

/-- **The grammar that was written.**  A statement that is refused changes nothing, and one that is accepted
adds its alternatives; the grammar of some statements lists what the accepted ones have added; and an action
behind the last symbol is shared by all. -/
theorem Statement.performAll_builds :
    (∀ (st : Statement α) (ps : Productions α), (∃ e, st.perform ps = (some e, ps)) ∨
      ∃ name act, st.head = .ref name ∧ st.right.actions = [act] ∧ st.perform ps
        = (none, ps.addAll (st.right.rows.map fun row => (name, .action act (.seq row))))) ∧
    (∀ (sts : List (Statement α)) (start : String), ∃ g, (performAll sts {}).grammar (.ref start) = .ok g ∧
      g.start = start ∧ g.Lists (added sts)) ∧
    ∀ (init : List (RightSide α)) (last : RightSide α) (act : Action α),
      (∀ side ∈ init ++ [last], side.IsSymbol) → SharesAction init last act := by
  refine ⟨fun st ps => ?_, fun sts start => ?_, fun init last act h => sharesAction act h⟩
  · rcases st.perform_cases with ⟨e, hst⟩ | ⟨⟨name, act, hhead, hact⟩, hst⟩
    · exact .inl ⟨e, hst ps⟩
    · refine .inr ⟨name, act, hhead, hact, (hst ps).trans ?_⟩
      rw [alternatives, hhead, hact]
      rfl
  · rw [performAll_eq]
    exact Productions.grammar_addAll (added sts) start

/-- Statements for two rules, with marks in them, and one between them that has no rule as its head. -/
def twoRules : List (Statement Unit) :=
  [{ head := .ref "A", right := .bind (.marked .many (.symbol (.literal "x"))) (.keep "x") },
    { head := .endOfInput, right := .bind (.rule "A") (.keep "a") },
    { head := .ref "B", right := .bind (.and (.marked .opt (.rule "A")) .endOfInput) (.first "b") },
    { head := .ref "A", right := .or (.symbol (.literal "y")) (.bind (.rule "B") (.keep "b")) }]

/-- The two rules are listed once each, with their marks, and an action can be shared between symbols with
and without a mark. -/
theorem Statement.performAll_builds_twoRules :
    (∃ g, (performAll twoRules {}).grammar (.ref "B") = .ok g ∧ g.rules.map (·.name) = ["A", "B"] ∧
      g.rules.map Rule.display = ["A = (\"x\"* \x7bx\x7d) / (\"y\" \x7bb\x7d) / (B \x7bb\x7d)",
        "B = A? EOF \x7bb\x7d"]) ∧
      SharesAction [.rule "A", .marked .opt (.rule "A")] (.marked .many (.rule "B"))
        (.keep "b" : Action Unit) := by
  constructor
  · obtain ⟨g, hg, -, hlists⟩ := performAll_builds.2.1 twoRules "B"
    refine ⟨g, hg, ?_⟩
    rw [hlists.rules_eq]
    decide +kernel
  · have hrule (name : String) : (.rule name : RightSide Unit).Means (.ref name) := ⟨_, rfl, rfl⟩
    have hmarked (m : Mark) (name : String) : (.marked m (.rule name) : RightSide Unit).IsSymbol :=
      ⟨_, RightSide.marked_means_iff.mpr ⟨_, hrule name, rfl⟩⟩
    refine performAll_builds.2.2 _ _ (.keep "b") ?_
    simp only [List.cons_append, List.nil_append, List.forall_mem_cons]
    exact ⟨⟨_, hrule "A"⟩, hmarked .opt "A", hmarked .many "B",
      fun side hside => absurd hside List.not_mem_nil⟩

end MessageIdl.Peg
