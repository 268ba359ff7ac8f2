import MessageIdl.Proofs.Peg.Explaining
import MessageIdl.Schema.Lexical

/-!
# Rejections are explained

Whatever grammar is written with the terminals of schemas, a text that it rejects is told what was
expected in its place.

* `IsTerminal`: the terminals of schemas.
* `rejections_explained`: parse errors of plain grammars, and the failures behind them.
-/

namespace MessageIdl.Schema

open MessageIdl.Peg

/-- The terminals of schemas: keywords and punctuation, names, numbers, and what gaps are made of. -/
inductive IsTerminal {α : Type} : Expr α → Prop where
  | literal (text : String) : IsTerminal (.literal text)
  | name : IsTerminal name
  | number : IsTerminal number
  | blank : IsTerminal blank
  | lineComment : IsTerminal lineComment
  | blockComment : IsTerminal blockComment
  | gapUnit : IsTerminal gapUnit

variable {α : Type}

theorem IsTerminal.plain {e : Expr α} (h : IsTerminal e) : e.plain = true := by
  cases h <;> rfl

/-- **Every rejection is explained.**  Under a plain grammar a parse error says what was expected, in
strictly increasing order, and has a hint.  A match that fails outside of lookaheads notes the failures
on its way, and one of them lies there or behind.  What is written with the terminals of schemas is a
plain grammar. -/
theorem rejections_explained {g : Grammar α} {p : Parser α} (checked : Parser.ofGrammar g = .ok p)
    (plain : g.plain = true) :
    (∀ file src err, p.parse file src = .error (.rejected err) →
      err.expected ≠ [] ∧ err.expected.Pairwise (· < ·) ∧ err.hint.isSome = true) ∧
    (∀ lines depth (e : Expr α) c w, e.plain = true → w.muted = 0 →
      (e.run (callRule p.find lines depth) lines c w).1 = .failed →
      ∃ failures : List (Nat × String),
        (e.run (callRule p.find lines depth) lines c w).2 = w.noteAll failures ∧
        (∀ pos label, (pos, label) ∈ failures ↔ Misses p.find lines e c pos label) ∧
        ∃ f ∈ failures, c.offset ≤ f.1) ∧
    ∀ (sts : List (Statement α)) (start : Expr α) (g' : Grammar α),
      (∀ st ∈ sts, ∀ e ∈ st.right.symbols, IsTerminal e) →
      (Statement.performAll sts {}).grammar start = .ok g' → g'.plain = true := by
  have rules := Grammar.plain_find checked plain
  refine ⟨?_, ?_, ?_⟩
  · intro file src err rejected
    exact Parser.explain_rejected rules rejected
  · intro lines depth e c w plain' audible fails
    exact Expr.run_explains rules lines depth plain' c audible fails
  · intro sts start g' terminals written
    exact Statement.grammar_plain (fun st listed e inside => (terminals st listed e inside).plain)
      written

/-- A row of brackets is refused for the semicolon behind it. -/
theorem rejections_explained_brackets : ∃ err,
    bracketParser.parse "" "[];" = .error (.rejected err) ∧
      err.expected ≠ [] ∧ err.expected.Pairwise (· < ·) ∧ err.hint.isSome = true :=
  ⟨_, rfl, (rejections_explained (show Parser.ofGrammar brackets = .ok bracketParser from rfl) rfl).1
    "" "[];" _ rfl⟩

end MessageIdl.Schema
