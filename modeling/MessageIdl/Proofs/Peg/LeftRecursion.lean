import Mathlib.Data.Finset.Card
import Mathlib.Logic.Relation
import MessageIdl.Proofs.Peg.Failures
import MessageIdl.Proofs.Peg.Nesting
import MessageIdl.Proofs.Peg.References

/-!
# Left recursion

A rule that is entered again at the same place never ends.  Where no rule can do so, every parse ends:
each nested call is at a later place, or at the same place and for a rule that fewer rules are
left-reached from.

* `MatchesEmpty`, `LeftRef`: what can be entered without taking anything.
* `Expr.CallsAnswer`, `Expr.run_answersAt`: an expression answers if the calls in its reach do.
* `Parser.LeftReaches`: one rule is entered from another without taking anything.
* `Parser.leftRank`, `Parser.callRule_answersAt`: a bound on nested calls from the number of rules that
  are left-reached.
* `Parser.terminates`: without left recursion every parse ends.
-/

namespace MessageIdl.Peg

open MessageIdl.Source

variable {α : Type}

/-- Somewhere `e` matches without taking anything. -/
def MatchesEmpty (find : String → Option (Expr α)) (e : Expr α) : Prop :=
  ∃ lines c stop v, Yields find lines e c (.matched stop v) ∧ stop.offset = c.offset

/-- `LeftRef find e name`: in `e` there is a reference to `name` that can be entered before anything is
taken. -/
inductive LeftRef (find : String → Option (Expr α)) : Expr α → String → Prop where
  | ref {name} : LeftRef find (.ref name) name
  | seq_head {e es name} : LeftRef find e name → LeftRef find (.seq (e :: es)) name
  | seq_tail {e es name} : MatchesEmpty find e → LeftRef find (.seq es) name →
      LeftRef find (.seq (e :: es)) name
  | choice {e es name} : e ∈ es → LeftRef find e name → LeftRef find (.choice es) name
  | repeated {least e name} : LeftRef find e name → LeftRef find (.repeated least e) name
  | optional {e name} : LeftRef find e name → LeftRef find (.optional e) name
  | not {e name} : LeftRef find e name → LeftRef find (.not e) name
  | action {act e name} : LeftRef find e name → LeftRef find (.action act e) name

variable {find : String → Option (Expr α)} {lines : LineIndex}

/-- What can be entered first is referred to. -/
theorem LeftRef.mem_refs {e : Expr α} {name : String} (h : LeftRef find e name) : name ∈ e.refs := by
  induction h with
  | ref => exact List.mem_cons_self
  | seq_head _ ih => exact List.mem_append_left _ ih
  | seq_tail _ _ ih => exact List.mem_append_right _ ih
  | choice he _ ih => exact Expr.mem_refsOfParts.mpr ⟨_, he, ih⟩
  | repeated _ ih | optional _ ih | not _ ih | action _ ih => exact ih

section Simp

variable {e : Expr α} {es : List (Expr α)} {name : String}

@[simp] theorem leftRef_literal {text : String} : ¬ LeftRef find (.literal text) name := nofun

@[simp] theorem leftRef_pattern {p : Pattern} : ¬ LeftRef find (.pattern p) name := nofun

@[simp] theorem leftRef_endOfInput : ¬ LeftRef find .endOfInput name := nofun

@[simp] theorem leftRef_ref {ref : String} : LeftRef find (.ref ref) name ↔ name = ref := by
  constructor
  · rintro ⟨⟩
    rfl
  · rintro rfl
    exact .ref

@[simp] theorem leftRef_seq_nil : ¬ LeftRef find (.seq []) name := nofun

@[simp] theorem leftRef_seq_cons : LeftRef find (.seq (e :: es)) name ↔
    LeftRef find e name ∨ MatchesEmpty find e ∧ LeftRef find (.seq es) name := by
  constructor
  · intro h
    cases h with
    | seq_head h => exact .inl h
    | seq_tail hempty h => exact .inr ⟨hempty, h⟩
  · rintro (h | ⟨hempty, h⟩)
    · exact .seq_head h
    · exact .seq_tail hempty h

@[simp] theorem leftRef_choice : LeftRef find (.choice es) name ↔ ∃ e ∈ es, LeftRef find e name := by
  constructor
  · intro h
    cases h with
    | choice he h => exact ⟨_, he, h⟩
  · rintro ⟨e, he, h⟩
    exact .choice he h

@[simp] theorem leftRef_repeated {least : Int} :
    LeftRef find (.repeated least e) name ↔ LeftRef find e name := by
  constructor
  · intro h
    cases h with
    | repeated h => exact h
  · exact .repeated

@[simp] theorem leftRef_optional : LeftRef find (.optional e) name ↔ LeftRef find e name := by
  constructor
  · intro h
    cases h with
    | optional h => exact h
  · exact .optional

@[simp] theorem leftRef_not : LeftRef find (.not e) name ↔ LeftRef find e name := by
  constructor
  · intro h
    cases h with
    | not h => exact h
  · exact .not

@[simp] theorem leftRef_action {act : Action α} :
    LeftRef find (.action act e) name ↔ LeftRef find e name := by
  constructor
  · intro h
    cases h with
    | action h => exact h
  · exact .action

/-- Only the empty literal matches without taking anything. -/
@[simp] theorem matchesEmpty_literal {text : String} :
    MatchesEmpty find (.literal text) ↔ text = "" := by
  constructor
  · rintro ⟨lines, c, stop, v, hy, hoff⟩
    cases hy with
    | literal hp =>
      rw [Cursor.advance_offset, Nat.add_eq_left] at hoff
      exact String.length_eq_zero_iff.mp hoff
  · rintro rfl
    exact ⟨⟨"", 0, #[0]⟩, ⟨0, []⟩, _, _, .literal (List.prefix_refl []), rfl⟩

end Simp

/-! ### Calls in reach -/

/-- What is reached without moving on is the same place. -/
theorem Cursor.Reaches.eq_of_offset {c stop : Cursor} (h : c.Reaches stop)
    (heq : stop.offset = c.offset) : stop = c := by
  obtain ⟨n, -, rfl⟩ := h
  rw [advance_offset, Nat.add_eq_left] at heq
  subst heq
  rfl

theorem Cursor.Reaches.offset_le {c stop : Cursor} (h : c.Reaches stop) : c.offset ≤ stop.offset := by
  obtain ⟨n, -, rfl⟩ := h
  rw [advance_offset]
  exact Nat.le_add_right _ _

namespace Expr

variable {depth : Nat}

/-- The calls that `e` can make when it is tried at `c` answer: those of names that can be entered first
at `c` itself, and those of all names behind `c`. -/
structure CallsAnswer (find : String → Option (Expr α)) (lines : LineIndex) (depth : Nat) (e : Expr α)
    (c : Cursor) : Prop where
  here : ∀ name, LeftRef find e name → (callRule find lines depth name).AnswersAt c
  behind : ∀ name ∈ e.refs, ∀ c', c.Reaches c' → c.offset < c'.offset →
    (callRule find lines depth name).AnswersAt c'

/-- A part of an expression makes the calls of the whole only. -/
theorem CallsAnswer.part {e part : Expr α} {c : Cursor} (h : CallsAnswer find lines depth e c)
    (hleft : ∀ name, LeftRef find part name → LeftRef find e name)
    (hrefs : ∀ name ∈ part.refs, name ∈ e.refs) : CallsAnswer find lines depth part c where
  here name hname := h.here name (hleft name hname)
  behind name hname := h.behind name (hrefs name hname)

/-- Behind `c` all calls answer, so they do wherever the expression is tried again. -/
theorem CallsAnswer.later {e : Expr α} {c c' : Cursor} (h : CallsAnswer find lines depth e c)
    (hr : c.Reaches c') : CallsAnswer find lines depth e c' := by
  rcases Nat.eq_or_lt_of_le hr.offset_le with heq | hlt
  · rw [hr.eq_of_offset heq.symm]
    exact h
  · refine ⟨fun name hname => h.behind name hname.mem_refs c' hr hlt, fun name hname c'' hr' hlt' => ?_⟩
    exact h.behind name hname c'' (hr.trans hr') (Nat.lt_trans hlt hlt')

mutual

/-- **An expression answers if the calls that it can make do.** -/
theorem run_answersAt : ∀ (e : Expr α) (c : Cursor), CallsAnswer find lines depth e c →
    (e.run (callRule find lines depth) lines).AnswersAt c
  | .literal text, c, _ => by rw [run]; exact matchLiteral_answersAt text
  | .pattern p, c, _ => by rw [run]; exact matchPattern_answersAt p
  | .seq items, c, h => by rw [run]; exact runSeq_answersAt items [] c h
  | .choice alternatives, c, h => by rw [run]; exact runChoice_answersAt alternatives c h
  | .repeated least body, c, h => by
      rw [run]
      have hbody : CallsAnswer find lines depth body c := h.part (fun _ => .repeated) fun _ => id
      exact matchRepeat_answersAt least (run_callRule_advances body) fun c' hr =>
        run_answersAt body c' (hbody.later hr)
  | .optional body, c, h => by
      rw [run]
      exact matchOptional_answersAt (run_answersAt body c (h.part (fun _ => .optional) fun _ => id))
  | .not body, c, h => by
      rw [run]
      exact matchNot_answersAt _ (run_answersAt body c (h.part (fun _ => .not) fun _ => id))
  | .ref name, c, h => by rw [run]; exact h.here name .ref
  | .action act body, c, h => by
      rw [run]
      exact matchAction_answersAt lines act (run_answersAt body c (h.part (fun _ => .action) fun _ => id))
  | .endOfInput, c, _ => by rw [run]; exact matchEnd_answersAt
  | .hole, c, _ => by intro w; simp [run]

theorem runSeq_answersAt : ∀ (items : List (Expr α)) (values : List (Value α)) (c : Cursor),
    CallsAnswer find lines depth (.seq items) c →
      (runSeq (callRule find lines depth) lines items values).AnswersAt c
  | [], values, c, _ => by intro w; simp [runSeq]
  | item :: items, values, c, h => by
      intro w
      have hitem := run_answersAt item c
        (h.part (fun _ => .seq_head) fun _ hn => List.mem_append_left _ hn) w
      have hy := run_yields (callRule_advances find lines depth) (callRule_yields find lines depth)
        item c w
      rcases hx : run (callRule find lines depth) lines item c w with ⟨o, w'⟩
      rw [hx] at hitem hy
      cases o with
      | exhausted => exact absurd rfl hitem
      | matched mid v =>
        have hy := hy.resolve_left (by simp)
        simp only [runSeq, hx]
        refine runSeq_answersAt items (v :: values) mid ?_ w'
        rcases Nat.eq_or_lt_of_le hy.reaches.offset_le with heq | hlt
        · -- the item took nothing, so that what comes next is entered first as well
          have hempty : MatchesEmpty find item := ⟨lines, c, mid, v, hy, heq.symm⟩
          rw [hy.reaches.eq_of_offset heq.symm]
          exact h.part (fun _ => .seq_tail hempty) fun _ hn => List.mem_append_right _ hn
        · have hbehind {name : String} (hn : name ∈ refs (.seq items)) :
              name ∈ refs (.seq (item :: items)) := List.mem_append_right _ hn
          refine ⟨fun name hn => h.behind name (hbehind hn.mem_refs) mid hy.reaches hlt,
            fun name hn c' hr hlt' => ?_⟩
          exact h.behind name (hbehind hn) c' (hy.reaches.trans hr) (Nat.lt_trans hlt hlt')
      | _ => simp [runSeq, hx]

theorem runChoice_answersAt : ∀ (alternatives : List (Expr α)) (c : Cursor),
    CallsAnswer find lines depth (.choice alternatives) c →
      (runChoice (callRule find lines depth) lines alternatives).AnswersAt c
  | [], c, _ => by intro w; simp [runChoice]
  | alternative :: alternatives, c, h => by
      intro w
      have hhead : CallsAnswer find lines depth alternative c :=
        h.part (fun _ => .choice List.mem_cons_self) fun _ hn => List.mem_append_left _ hn
      have htail : CallsAnswer find lines depth (.choice alternatives) c := by
        refine h.part (fun name hn => ?_) fun _ hn => List.mem_append_right _ hn
        cases hn with
        | choice he hn => exact .choice (List.mem_cons_of_mem _ he) hn
      simp only [runChoice]
      split
      · exact runChoice_answersAt alternatives c htail _
      · exact run_answersAt alternative c hhead w

end

end Expr

/-! ### Ranks -/

namespace Parser

/-- The rule `a` left-reaches the rule `b`: in the body of `a` there is a reference to `b` that can be
entered before anything is taken. -/
def LeftReaches (p : Parser α) (a b : String) : Prop :=
  ∃ body, p.find a = some body ∧ LeftRef p.find body b

/-- The names of the rules. -/
def names (p : Parser α) : Finset String := (p.latestFirst.map (·.name)).toFinset

open Classical in
/-- How many rules a rule left-reaches in one or more steps. -/
noncomputable def leftRank (p : Parser α) (a : String) : Nat :=
  (p.names.filter fun b => Relation.TransGen p.LeftReaches a b).card

variable {p : Parser α}

theorem mem_names {a : String} : a ∈ p.names ↔ ∃ r ∈ p.latestFirst, r.name = a := by
  rw [names, List.mem_toFinset, List.mem_map]

theorem card_names_le : p.names.card ≤ p.latestFirst.length := by
  have h := List.toFinset_card_le (p.latestFirst.map (·.name))
  rw [List.length_map] at h
  exact h

theorem mem_names_of_find {a : String} {body : Expr α} (h : p.find a = some body) : a ∈ p.names := by
  obtain ⟨r, hr, hname, -⟩ := find_rule h
  exact mem_names.mpr ⟨r, hr, hname⟩

section Ranks

variable (hrec : ∀ a, ¬ Relation.TransGen p.LeftReaches a a)

include hrec

/-- A rule that is not left-recursive left-reaches fewer rules than there are. -/
theorem leftRank_lt {a : String} (ha : a ∈ p.names) : p.leftRank a < p.latestFirst.length := by
  classical
  refine Nat.lt_of_lt_of_le (Finset.card_lt_card ?_) card_names_le
  refine Finset.ssubset_iff_subset_ne.mpr ⟨Finset.filter_subset _ _, fun heq => ?_⟩
  rw [← heq] at ha
  exact hrec a (Finset.mem_filter.mp ha).2

/-- Ranks fall along left references. -/
theorem leftRank_lt_of_leftReaches {a b : String} (hb : b ∈ p.names) (h : p.LeftReaches a b) :
    p.leftRank b < p.leftRank a := by
  classical
  refine Finset.card_lt_card (Finset.ssubset_iff_subset_ne.mpr ⟨fun c hc => ?_, fun heq => ?_⟩)
  · obtain ⟨hc, hbc⟩ := Finset.mem_filter.mp hc
    exact Finset.mem_filter.mpr ⟨hc, .head h hbc⟩
  · have hmem := Finset.mem_filter.mpr ⟨hb, Relation.TransGen.single h⟩
    rw [← heq] at hmem
    exact hrec b (Finset.mem_filter.mp hmem).2

/-- **Calls in reach answer.**  A bound on nested calls suffices if it is above the rank of the rule, with
as many calls more for each character that is left as there are rules. -/
theorem callRule_answersAt (lines : LineIndex)
    (hrefs : ∀ name body, p.find name = some body → ∀ ref ∈ body.refs, ∃ body', p.find ref = some body')
    (depth : Nat) : ∀ (name : String) (c : Cursor), (∃ body, p.find name = some body) →
      p.leftRank name + p.latestFirst.length * c.rest.length < depth →
      (callRule p.find lines depth name).AnswersAt c := by
  induction depth with
  | zero => intro name c _ h; exact absurd h (Nat.not_lt_zero _)
  | succ depth ih =>
    intro name c hname hlt w
    obtain ⟨body, hf⟩ := hname
    simp only [callRule, hf]
    refine Expr.run_answersAt body c ⟨fun ref href => ?_, fun ref href c' hr hoff => ?_⟩ w
    · obtain ⟨body', hf'⟩ := hrefs name body hf ref href.mem_refs
      have hrank := leftRank_lt_of_leftReaches hrec (mem_names_of_find hf') ⟨body, hf, href⟩
      exact ih ref c ⟨body', hf'⟩ (by omega)
    · obtain ⟨body', hf'⟩ := hrefs name body hf ref href
      have hrank := leftRank_lt hrec (mem_names_of_find hf')
      have hlen := hr.length_lt (Nat.ne_of_gt hoff)
      have hmul : p.latestFirst.length * c'.rest.length + p.latestFirst.length
          ≤ p.latestFirst.length * c.rest.length := by
        rw [← Nat.mul_succ]
        exact Nat.mul_le_mul_left _ hlen
      exact ih ref c' ⟨body', hf'⟩ (by omega)

end Ranks

/-- A table of ranks that fall along left references rules out left recursion. -/
theorem not_leftRecursive_of_rank (rank : String → Nat)
    (hrank : ∀ a b, p.LeftReaches a b → rank b < rank a) (a : String) :
    ¬ Relation.TransGen p.LeftReaches a a := by
  have hlt {b c : String} (h : Relation.TransGen p.LeftReaches b c) : rank c < rank b := by
    induction h with
    | single h => exact hrank _ _ h
    | tail _ h ih => exact Nat.lt_trans (hrank _ _ h) ih
  exact fun h => Nat.lt_irrefl _ (hlt h)

/-- There is none if rules refer to earlier ones only. -/
theorem not_leftRecursive_of_refs {rank : String → Nat}
    (below : ∀ name body, p.find name = some body → ∀ ref ∈ body.refs, rank ref < rank name)
    (a : String) : ¬ Relation.TransGen p.LeftReaches a a :=
  not_leftRecursive_of_rank rank (fun a b ⟨body, hf, hleft⟩ => below a body hf b hleft.mem_refs) a

/-- The ranks of the rules of rows of brackets. -/
def bracketRank : String → Nat
  | "Row" => 2
  | "Pair" => 1
  | _ => 0

theorem bracketRank_lt (a b : String) (h : bracketParser.LeftReaches a b) :
    bracketRank b < bracketRank a := by
  obtain ⟨body, hf, hleft⟩ := h
  obtain ⟨r, hr, rfl, rfl⟩ := find_rule hf
  simp only [bracketParser, brackets, List.mem_reverse, List.mem_cons, List.not_mem_nil, or_false] at hr
  rcases hr with rfl | rfl | rfl
  · simp at hleft
  · simp only [leftRef_seq_cons, leftRef_ref, leftRef_literal, matchesEmpty_literal] at hleft
    obtain rfl : b = "Blanks" := by simpa using hleft
    decide
  · simp only [leftRef_seq_cons, leftRef_repeated, leftRef_ref, leftRef_not, leftRef_literal,
      leftRef_seq_nil, and_false, or_false, false_or] at hleft
    rcases hleft with rfl | ⟨-, -, rfl⟩
    · decide
    · decide

theorem not_leftRecursive_brackets (a : String) :
    ¬ Relation.TransGen bracketParser.LeftReaches a a :=
  not_leftRecursive_of_rank bracketRank bracketRank_lt a

/-- Without left recursion the bound on nested calls is not reached. -/
theorem matchStart_answers {g : Grammar α} (hg : ofGrammar g = .ok p)
    (hrec : ∀ a, ¬ Relation.TransGen p.LeftReaches a a) (lines : LineIndex) (text : List Char) :
    (p.matchStart lines text).1 ≠ .exhausted := by
  obtain ⟨body, hstart⟩ := exists_start hg
  have hrank := leftRank_lt hrec (mem_names_of_find hstart)
  have hbound : p.leftRank p.start + p.latestFirst.length * text.length < p.depth text.length := by
    rw [depth, Nat.mul_succ]
    omega
  exact callRule_answersAt hrec lines (fun name body h => exists_ref hg h) (p.depth text.length)
    p.start ⟨0, text⟩ ⟨body, hstart⟩ hbound {}

/-- **Without left recursion every parse ends.**  For every grammar that passes its check and in which no
rule left-reaches itself, and for every text: the start rule has an outcome, the parser finds it within
its bound on nested calls, and so gives a value, rejects the text, or is stopped by a fault. -/
theorem terminates {g : Grammar α} {p : Parser α} (hg : ofGrammar g = .ok p)
    (hrec : ∀ a, ¬ Relation.TransGen p.LeftReaches a a) (file src : String) :
    (∃ o, Yields p.find (LineIndex.ofText file src.toList) (.ref p.start) ⟨0, src.toList⟩ o) ∧
      ((∃ v, p.parse file src = .ok v) ∨ (∃ err, p.parse file src = .error (.rejected err)) ∨
        ∃ fault, p.parse file src = .error (.raised fault)) := by
  have hanswers := matchStart_answers hg hrec (LineIndex.ofText file src.toList) src.toList
  have hy := callRule_yields p.find (LineIndex.ofText file src.toList) (p.depth src.toList.length)
    p.start ⟨0, src.toList⟩ {}
  refine ⟨⟨_, hy.resolve_left hanswers⟩, ?_⟩
  rcases hm : p.matchStart (LineIndex.ofText file src.toList) src.toList with ⟨o, w⟩
  rw [hm] at hanswers
  simp only [parse, hm]
  cases o with
  | matched stop v =>
    by_cases hrest : stop.rest.isEmpty = true
    · exact .inl ⟨v, if_pos hrest⟩
    · exact .inr (.inl ⟨_, if_neg hrest⟩)
  | failed => exact .inr (.inl ⟨_, rfl⟩)
  | raised fault => exact .inr (.inr ⟨fault, rfl⟩)
  | exhausted => exact absurd rfl hanswers

/-- The grammar of rows of brackets left-reaches no rule from itself, although its blanks are repeated
where nothing may be taken. -/
theorem terminates_brackets : ofGrammar brackets = .ok bracketParser ∧
    (∀ a, ¬ Relation.TransGen bracketParser.LeftReaches a a) ∧
    ∃ o, Yields bracketParser.find (LineIndex.ofText "" "[ [".toList) (.ref "Row") ⟨0, "[ [".toList⟩ o :=
  ⟨rfl, not_leftRecursive_brackets,
    (terminates (g := brackets) rfl not_leftRecursive_brackets "" "[ [").1⟩

/-- A rule that calls itself first is called without end. -/
example : (⟨"A", [⟨"A", .ref "A"⟩]⟩ : Parser Unit).parse "" "x" = .error .exhausted := rfl

end Parser

end MessageIdl.Peg
