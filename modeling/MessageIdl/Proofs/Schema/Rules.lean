import MessageIdl.Proofs.Peg.Contracts
import MessageIdl.Proofs.Schema.Reading
import MessageIdl.Schema.Parse

/-!
# The rules of the schema grammar

* `rules`: the parser of the grammar.
* `ensures_passOn`, `takes_passOn`, `refuses_passOn`: an alternative that passes its only value on.
* `ensures_items`, `takes_items`: rounds of a rule read the texts of its nodes in a row.
-/

namespace MessageIdl.Schema

open MessageIdl.Peg MessageIdl.Source

/-- The parser of the schema grammar. -/
def rules : Parser Node := { start := grammar.start, latestFirst := grammar.rules.reverse }

/-- The schema grammar passes its check. -/
theorem parser_eq_rules : parser = .ok rules := rfl

section Contracts

variable {find : String → Option (Expr Node)} {lines : LineIndex} {e : Expr Node}
  {text rest : List Char}

/-! ### Passing a value on -/

theorem ensures_passOn {R : Cursor → Cursor → Value Node → Prop} (h : Ensures find lines e R) :
    Ensures find lines (boundBody passOn [e]) R := by
  refine (h.row_cons .nil).action fun c stop xs hxs => ?_
  obtain ⟨mid, x, xs', hR, ⟨rfl, -⟩, rfl⟩ := hxs
  exact ⟨x, rfl, hR⟩

theorem takes_passOn {P : Value Node → Prop} (h : Takes find lines e text rest P) :
    Takes find lines (boundBody passOn [e]) text rest P := by
  refine (h.row_cons .nil).action fun xs span hxs => ?_
  obtain ⟨x, xs', hP, -, rfl⟩ := hxs
  exact ⟨x, rfl, hP⟩

theorem refuses_passOn (h : Refuses find lines e text) :
    Refuses find lines (boundBody passOn [e]) text := h.row_head.action

/-! ### Rounds -/

variable {A B : Type} {textOf : A → Language Char} {value : A → Value Node} {bare : A → B}

/-- Rounds read the texts of their nodes in a row. -/
theorem ensures_items
    (h : Ensures find lines e
      (fun c stop v => ∃ a, v = value a ∧ Reads (textOf a) c.rest stop.rest)) :
    Ensures find lines (.repeated 0 e)
      (fun c stop v => ∃ as : List A, v = .list (as.map value) ∧
        Reads (as.map textOf).prod c.rest stop.rest) := by
  refine h.many (fun c => ⟨[], rfl, .one _⟩) fun c mid stop v vs hv hvs => ?_
  obtain ⟨a, rfl, ha⟩ := hv
  obtain ⟨as, has, hr⟩ := hvs
  cases has
  exact ⟨a :: as, rfl, ha.mul hr⟩

/-- Texts that are not empty and never begin like a gap. -/
def BeginsSolid (L : Language Char) : Prop := ∀ x ∈ L, x ≠ [] ∧ ∀ t, Solid (x ++ t)

theorem BeginsSolid.nil_not_mem {L : Language Char} (h : BeginsSolid L) : [] ∉ L :=
  fun h0 => (h [] h0).1 rfl

/-- Texts in a row begin like the first one. -/
theorem BeginsSolid.prod (h : ∀ a, BeginsSolid (textOf a)) (as : List A) :
    ∀ x ∈ (as.map textOf).prod, x ≠ [] → ∀ t, Solid (x ++ t) := by
  cases as with
  | nil =>
    intro x hx hne
    exact absurd hx hne
  | cons a as =>
    intro x hx _ t
    obtain ⟨y, hy, z, -, rfl⟩ := Language.mem_mul.mp hx
    rw [List.append_assoc]
    exact (h a y hy).2 (z ++ t)

/-- **Rounds take texts in a row**, by induction on the nodes: in front of each text there is nothing
that a gap could take, and where there are no more texts the rule refuses. -/
theorem takes_items (hbegin : ∀ a, BeginsSolid (textOf a))
    (htake : ∀ a t r, Reads (textOf a) t r → Solid r →
      Takes find lines e t r (fun v => ∃ a', v = value a' ∧ bare a' = bare a))
    (hrefuse : Refuses find lines e rest) (hrest : Solid rest) (as : List A) :
    ∀ t, Reads (as.map textOf).prod t rest → Solid t →
      Takes find lines (.repeated 0 e) t rest
        (fun v => ∃ as' : List A, v = .list (as'.map value) ∧ as'.map bare = as.map bare) := by
  induction as with
  | nil =>
    intro t hread ht
    obtain ⟨x, hx, tail, rfl, hl⟩ := hread
    cases (show x = [] from hx)
    cases (hl.eq_of_solid ht : tail = rest)
    refine (Takes.many_nil hrefuse).imp fun v hv => ?_
    exact ⟨[], hv, rfl⟩
  | cons a as ih =>
    intro t hread ht
    obtain ⟨mid, ha, has, hmid⟩ := hread.split hrest (BeginsSolid.prod hbegin as)
    have hlt : mid.length < t.length := ha.length_lt (hbegin a).nil_not_mem
    refine ((htake a t mid ha hmid).many_cons hlt (ih mid has hmid)).imp fun v hv => ?_
    obtain ⟨x, xs, ⟨a', rfl, ha'⟩, ⟨as', has', hbare⟩, rfl⟩ := hv
    cases has'
    refine ⟨a' :: as', rfl, ?_⟩
    rw [List.map_cons, List.map_cons, ha', hbare]

end Contracts

end MessageIdl.Schema
