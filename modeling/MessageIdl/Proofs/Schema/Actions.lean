import MessageIdl.Proofs.Schema.Parsing

/-!
# Actions accept what they are given

The actions read the values of a match by their places in a row.  The contracts of the rules say what
stands where, so that no action ever meets too few values or one of another kind.

* `Accepts`: an action has an answer to the values of every match.
* `actions_accept`: all actions of the grammar.
* `enumeration_keeps`: the action of enumerations leaves nothing out.
* `parse_ok_or_rejected`: a text is parsed or rejected.
-/

namespace MessageIdl.Schema

open MessageIdl.Peg MessageIdl.Source

/-- An action has an answer to the values of every match of what it is bound to. -/
def Accepts (act : Action Node) (body : Expr Node) : Prop :=
  ∀ lines c stop v, Yields rules.find lines body c (.matched stop v) →
    ∃ built, act.build v.spread (lines.span c.offset stop.offset) = .ok built

/-- An action accepts what it is given if its rule raises no fault. -/
theorem accepts_of_ensures {name : String} {act : Action Node} {body : Expr Node}
    {R : Cursor → Cursor → Value Node → Prop} (hf : rules.find name = some (.action act body))
    (h : ∀ lines, Ensures rules.find lines (.ref name) R) : Accepts act body := by
  intro lines c stop v hy
  cases hb : act.build v.spread (lines.span c.offset stop.offset) with
  | ok built => exact ⟨built, rfl⟩
  | error fault => exact absurd (.ref hf (.action_raised hy hb)) (h lines).not_raised

/-- There is a value to pass on. -/
theorem accepts_passOn (e : Expr Node) (es : List (Expr Node)) : Accepts passOn (.seq (e :: es)) := by
  intro lines c stop v hy
  cases hy with
  | seq_cons _ _ => exact ⟨_, rfl⟩
  | seq_stop _ hu => exact absurd rfl (hu stop v)
  | seq_later_stop _ _ hu => exact absurd rfl (hu stop v)

/-- All actions of the alternatives of a type pass a value on. -/
theorem typeAlternatives_actions (ks : List Scalar) :
    ∀ a ∈ Expr.actionsOfParts (typeAlternatives ks), ∃ e, a = (passOn, .seq [e]) := by
  induction ks with
  | nil =>
    intro a ha
    cases List.mem_singleton.mp ha
    exact ⟨_, rfl⟩
  | cons k ks ih =>
    intro a ha
    rcases List.mem_cons.mp ha with rfl | ha
    · exact ⟨_, rfl⟩
    · exact ih a ha

theorem eitherRule_actions (ruleA ruleB : String) :
    ∀ a ∈ (eitherRule (.ref ruleA) (.ref ruleB)).actions, ∃ e, a = (passOn, .seq [e]) := by
  intro a ha
  rcases List.mem_cons.mp ha with rfl | ha
  · exact ⟨_, rfl⟩
  · cases List.mem_singleton.mp ha
    exact ⟨_, rfl⟩

/-- **All actions of the grammar accept what they are given**, rule by rule. -/
theorem actions_accept : ∀ r ∈ grammar.rules, ∀ a ∈ r.body.actions, Accepts a.1 a.2 := by
  have passes {as : List (Action Node × Expr Node)} (h : ∀ a ∈ as, ∃ e, a = (passOn, .seq [e])) :
      ∀ a ∈ as, Accepts a.1 a.2 := by
    intro a ha
    obtain ⟨e, rfl⟩ := h a ha
    exact accepts_passOn e []
  have single {act : Action Node} {body : Expr Node} (h : Accepts act body) :
      ∀ a ∈ [(act, body)], Accepts a.1 a.2 := by
    intro a ha
    cases List.mem_singleton.mp ha
    exact h
  intro r hr
  simp only [grammar, List.mem_cons, List.not_mem_nil, or_false] at hr
  rcases hr with rfl | rfl | rfl | rfl | rfl | rfl | rfl | rfl | rfl | rfl
  · exact single (accepts_of_ensures find_gapRule fun _ => unit_ensures)
  · exact single (accepts_of_ensures find_repeatedRule fun _ => repeated_ensures)
  · exact passes (typeAlternatives_actions Scalar.all)
  · exact single (accepts_of_ensures find_fieldRule fun _ => field_ensures)
  · exact single (accepts_of_ensures find_enumValueRule fun _ => value_ensures)
  · exact single (accepts_of_ensures find_enumRule fun _ => enum_ensures)
  · exact passes (eitherRule_actions _ _)
  · exact single (accepts_of_ensures find_messageRule fun _ => message_ensures)
  · exact passes (eitherRule_actions _ _)
  · exact single (accepts_of_ensures find_fileRule fun _ => file_ensures)

/-- **An enumeration keeps all its values**: the list that its action is given holds values only. -/
theorem enumeration_keeps {lines : LineIndex} {body : Expr Node}
    (hbody : enumRule.body = .action buildEnumeration body) {c stop : Cursor} {v : Value Node}
    (hy : Yields rules.find lines body c (.matched stop v)) :
    ∃ items, listAt v.spread 6 = .ok items ∧ (enumValues items).length = items.length := by
  cases hbody
  have hrow : EnsuresRow rules.find lines _ _ := (Ensures.literal Lexeme.enum.text).row_cons
    (gap1_ensures.row_cons (bodyRow_ensures valueItems_ensures))
  obtain ⟨xs, rfl, c₁, _, _, -, ⟨c₂, _, _, -, ⟨s, vs, ⟨_, _, _, _, _, _, rfl, rfl⟩, -⟩, rfl⟩, rfl⟩ :=
    hrow.matched hy
  refine ⟨_, rfl, ?_⟩
  rw [enumValues_map, List.length_map]

theorem ref_isSome : ∀ r ∈ grammar.rules, ∀ name ∈ r.body.refs, (rules.find name).isSome = true := by
  decide

theorem rule_whole : ∀ r ∈ grammar.rules, r.body.whole = true := by decide

/-- Each reference is to a rule that there is, and no part of a rule was left out. -/
theorem rules_closed : ∀ r ∈ grammar.rules, r.body.Closed rules.find := by
  intro r hr
  refine ⟨fun name hname => ?_, rule_whole r hr⟩
  exact Option.isSome_iff_exists.mp (ref_isSome r hr name hname)

/-- The start rule fails or matches a file, however deeply rules may be nested. -/
theorem start_outcome (lines : LineIndex) (text : List Char) :
    ∃ o, Yields rules.find lines (.ref grammar.start) ⟨0, text⟩ o ∧
      (o = .failed ∨ ∃ stop f, o = .matched stop (.node (.file f))) := by
  have hy := matchStart_yields lines text
  refine ⟨_, hy, ?_⟩
  rcases file_ensures _ _ hy with ho | ⟨stop, v, ho, f, rfl, -⟩
  · exact .inl ho
  · exact .inr ⟨stop, f, ho⟩

/-- **A text is parsed or rejected, and nothing else can happen.**  The start rule has an outcome, which
is a failure or the match of a file; all references are defined; every action accepts the values of
every match of what it is bound to; and the action of enumerations leaves none of them out. -/
theorem parse_ok_or_rejected (file src : String) :
    ((∃ f, parse file src = .ok f) ∨ ∃ e, parse file src = .error (.rejected e)) ∧
    (∃ o, Yields rules.find (LineIndex.ofText file src.toList) (.ref grammar.start)
      ⟨0, src.toList⟩ o ∧ (o = .failed ∨ ∃ stop f, o = .matched stop (.node (.file f)))) ∧
    (∀ r ∈ grammar.rules, r.body.Closed rules.find ∧ ∀ a ∈ r.body.actions, Accepts a.1 a.2) ∧
    (∀ lines body c stop v, enumRule.body = .action buildEnumeration body →
      Yields rules.find lines body c (.matched stop v) →
        ∃ items, listAt v.spread 6 = .ok items ∧ (enumValues items).length = items.length) := by
  refine ⟨?_, start_outcome _ _, fun r hr => ⟨rules_closed r hr, actions_accept r hr⟩,
    fun lines body c stop v hbody hy => enumeration_keeps hbody hy⟩
  rcases parse_cases file src with ⟨f, hf, -⟩ | ⟨hrejected, -⟩
  · exact .inl ⟨f, hf⟩
  · exact .inr hrejected

end MessageIdl.Schema
