import MessageIdl.Proofs.Peg.LeftRecursion
import MessageIdl.Proofs.Schema.Declarations

/-!
# Parsing reads the language of schemas

* `rank`, `matchStart_answers`: each rule refers to rules before it only, so nested calls end.
* `parseUnder`: parsing under any grammar, of which `parse` is a case.
* `parse_cases`: a text of the language is parsed, and any other one is rejected.
* `parse_iff_fileText`: the trees of a text are those that the language gives it.
-/

namespace MessageIdl.Schema

open MessageIdl.Peg MessageIdl.Source

/-! ### Nested calls end -/

/-- The place of a rule in the grammar. -/
def rank (name : String) : Nat := grammar.rules.findIdx (·.name == name)

/-- What a reference means is the body of a rule of the grammar. -/
theorem exists_rule {name : String} {body : Expr Node} (h : rules.find name = some body) :
    ∃ r ∈ grammar.rules, r.name = name ∧ r.body = body := by
  obtain ⟨r, hr, hbody⟩ := Option.map_eq_some_iff.mp h
  have hname := List.find?_some hr
  exact ⟨r, List.mem_reverse.mp (List.mem_of_find?_eq_some hr), beq_iff_eq.mp hname, hbody⟩

/-- Rules refer to earlier ones only. -/
theorem ref_rank_lt : ∀ r ∈ grammar.rules, ∀ ref ∈ r.body.refs, rank ref < rank r.name := by
  decide

theorem rules_below (name : String) (body : Expr Node) (h : rules.find name = some body) :
    ∀ ref ∈ body.refs, rank ref < rank name := by
  obtain ⟨r, hr, rfl, rfl⟩ := exists_rule h
  exact ref_rank_lt r hr

theorem not_leftRecursive (a : String) : ¬ Relation.TransGen rules.LeftReaches a a :=
  Parser.not_leftRecursive_of_refs rules_below a

/-- The bound on nested calls is not reached. -/
theorem matchStart_answers (lines : LineIndex) (text : List Char) :
    (rules.matchStart lines text).1 ≠ .exhausted :=
  Parser.matchStart_answers parser_eq_rules not_leftRecursive lines text

/-- The outcome of the start rule is the one that is yielded. -/
theorem matchStart_yields (lines : LineIndex) (text : List Char) :
    Yields rules.find lines (.ref "ProtocolFile") ⟨0, text⟩ (rules.matchStart lines text).1 := by
  have h := callRule_yields rules.find lines (rules.depth text.length) "ProtocolFile" ⟨0, text⟩ {}
  exact h.resolve_left (matchStart_answers lines text)

/-! ### Parsing -/

/-- The tree of a text under any grammar, or why there is none. -/
def parseUnder (g : Grammar Node) (file src : String) : Except Stop SchemaFile := do
  match Parser.ofGrammar g with
  | .error e => .error (.unusable e)
  | .ok p =>
      match ← p.parse file src with
      | .node (.file f) => .ok f
      | _ => .error (.raised .wrongKind)

theorem parseUnder_grammar (file src : String) : parseUnder grammar file src = parse file src := rfl

theorem parseUnder_eq {g : Grammar Node} {p : Parser Node} (checked : Parser.ofGrammar g = .ok p)
    (file src : String) : parseUnder g file src
      = (p.parse file src >>= fun v => match v with
        | .node (.file f) => .ok f
        | _ => .error (.raised .wrongKind)) := by
  unfold parseUnder
  split
  · rename_i refused
    cases checked.symm.trans refused
  · rename_i accepted
    cases checked.symm.trans accepted
    rfl

/-- What the parser is asked for comes from the match of the start rule. -/
theorem parse_eq (file src : String) : parse file src
    = (rules.parse file src >>= fun v => match v with
      | .node (.file f) => .ok f
      | _ => .error (.raised .wrongKind)) := by
  rw [← parseUnder_grammar]
  exact parseUnder_eq parser_eq_rules file src

/-- The start rule matches a text that is parsed, and fails on one that is rejected. -/
theorem parse_outcome (file src : String) :
    (∃ stop f, parse file src = .ok f ∧
      Yields rules.find (LineIndex.ofText file src.toList) (.ref "ProtocolFile") ⟨0, src.toList⟩
        (.matched stop (.node (.file f)))) ∨
    ((∃ e, parse file src = .error (.rejected e)) ∧
      Yields rules.find (LineIndex.ofText file src.toList) (.ref "ProtocolFile") ⟨0, src.toList⟩
        .failed) := by
  have hy := matchStart_yields (LineIndex.ofText file src.toList) src.toList
  rcases hm : rules.matchStart (LineIndex.ofText file src.toList) src.toList with ⟨o, w⟩
  rw [hm] at hy
  rcases file_ensures _ _ hy with rfl | ⟨stop, v, rfl, f, rfl, -, hstop, -⟩
  · have hparse : rules.parse file src
        = .error (.rejected (w.explain (LineIndex.ofText file src.toList) src.toList)) := by
      simp only [Parser.parse, hm]
    exact .inr ⟨⟨_, by rw [parse_eq, hparse]; rfl⟩, hy⟩
  · have hparse : rules.parse file src = .ok (.node (.file f)) := by
      simp only [Parser.parse, hm, hstop, List.isEmpty_nil, if_true]
    exact .inl ⟨stop, f, by rw [parse_eq, hparse]; rfl, hy⟩

/-- **A text is parsed or rejected**, and it is rejected if the language gives it no tree. -/
theorem parse_cases (file src : String) :
    (∃ f, parse file src = .ok f ∧ f.path = none ∧ src.toList ∈ fileText f) ∨
      (∃ e, parse file src = .error (.rejected e)) ∧ ∀ f, src.toList ∉ fileText f := by
  rcases parse_outcome file src with ⟨stop, f, hf, hy⟩ | ⟨hrejected, hy⟩
  · obtain ⟨f', hnode, hpath, -, htext⟩ := file_ensures.matched hy
    cases hnode
    exact .inl ⟨f, hf, hpath, htext⟩
  · exact .inr ⟨hrejected, fun f htext => (takes_file htext).not_failed rfl hy⟩

theorem same_of_parts {f g : SchemaFile}
    (hmessages : f.messages.map Message.bare = g.messages.map Message.bare)
    (henums : f.enums.map Enumeration.bare = g.enums.map Enumeration.bare)
    (hpath : f.path = g.path) : f.Same g := by
  rw [SchemaFile.Same, SchemaFile.bare, SchemaFile.bare, hmessages, henums, hpath]

theorem SchemaFile.Same.path_eq {f g : SchemaFile} (h : f.Same g) : f.path = g.path := by
  have hbare : f.bare.path = g.bare.path := by rw [show f.bare = g.bare from h]
  exact hbare

/-- **The language gives a text one tree at most**: the reader would find both. -/
theorem same_of_mem_fileText {t : List Char} {f g : SchemaFile} (hf : t ∈ fileText f)
    (hg : t ∈ fileText g) (hpath : f.path = g.path) : f.Same g := by
  have takes {f : SchemaFile} (h : t ∈ fileText f) :
      Takes rules.find (LineIndex.ofText memoryName t) (.ref "ProtocolFile") t [] _ := takes_file h
  obtain ⟨_, _, hy, -, f', rfl, -, hmessages, henums⟩ := takes hf ⟨0, t⟩ rfl
  obtain ⟨_, _, hy', -, f'', rfl, -, hmessages', henums'⟩ := takes hg ⟨0, t⟩ rfl
  cases hy.deterministic hy'
  exact same_of_parts (hmessages.symm.trans hmessages') (henums.symm.trans henums') hpath

/-- A tree that was parsed has no path, and the text is one of its texts. -/
theorem mem_fileText_of_parse {file src : String} {f : SchemaFile} (h : parse file src = .ok f) :
    f.path = none ∧ src.toList ∈ fileText f := by
  rcases parse_cases file src with ⟨f', hf', hpath, htext⟩ | ⟨⟨e, he⟩, -⟩
  · rw [h] at hf'
    cases hf'
    exact ⟨hpath, htext⟩
  · rw [h] at he
    cases he

/-- A text of a tree without a path is parsed to this tree. -/
theorem parse_of_mem_fileText {src : String} {pf : SchemaFile} (file : String)
    (htext : src.toList ∈ fileText pf) (hpath : pf.path = none) :
    ∃ f, parse file src = .ok f ∧ f.Same pf := by
  rcases parse_cases file src with ⟨f, hf, hnone, htext'⟩ | ⟨-, hnot⟩
  · exact ⟨f, hf, same_of_mem_fileText htext' htext (hnone.trans hpath.symm)⟩
  · exact absurd htext (hnot pf)

/-- **The trees of a text are those of the language.**  For every text and every tree: the parser
finds the tree, up to spans, if and only if the text is one of the texts of the tree and the tree has
no path. -/
theorem parse_iff_fileText (file src : String) (pf : SchemaFile) :
    (∃ f, parse file src = .ok f ∧ f.Same pf) ↔ src.toList ∈ fileText pf ∧ pf.path = none := by
  constructor
  · rintro ⟨f, hf, hsame⟩
    obtain ⟨hpath, htext⟩ := mem_fileText_of_parse hf
    rw [hsame.fileText_eq] at htext
    exact ⟨htext, hsame.path_eq ▸ hpath⟩
  · rintro ⟨htext, hpath⟩
    exact parse_of_mem_fileText file htext hpath

end MessageIdl.Schema
