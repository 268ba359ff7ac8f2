import Mathlib.Data.Finset.Card
import Mathlib.Data.Nat.Find
import MessageIdl.Proofs.Corpus.Scopes

/-!
# Claiming names

A claimed name is lengthened until its folded form is new.  Each step makes the folded form one letter
longer, so that no two of them are the same and one of the first few must be new.

* `lengthened`: a name with a number of `_X` behind it.
* `NamePool.le_card_of_taken`: how many longer names in a row can be taken.
* `NamePool.lengthen_eq`: lengthening ends at the first name that is new.
* `NamePool.Request`, `NamePool.answerAll`: claims and draws in any order.
* `NamePool.answerAll_gives`: the names that are handed out are new, to the pool and to each other.
* `NamePool.claim_least`: which name a claim hands out.
-/

namespace MessageIdl.Corpus

/-! ### Longer names -/

/-- A name with `_X` behind it `k` times. -/
def lengthened (name : String) (k : Nat) : String := name ++ String.join (List.replicate k "_X")

@[simp] theorem lengthened_zero (name : String) : lengthened name 0 = name := String.append_empty

theorem lengthened_succ (name : String) (k : Nat) :
    lengthened name (k + 1) = lengthened (name ++ "_X") k := by
  rw [lengthened, lengthened, List.replicate_succ, String.join_cons, String.append_assoc]

/-- The underscore is dropped and the letter is kept. -/
theorem length_fold_lengthened (name : String) (k : Nat) :
    (fold (lengthened name k)).toList.length = (fold name).toList.length + k := by
  induction k generalizing name with
  | zero => rw [lengthened_zero, Nat.add_zero]
  | succ k ih =>
    have hstep : (fold "_X").toList.length = 1 := rfl
    rw [lengthened_succ, ih, NamePool.length_fold_append, hstep]
    omega

theorem fold_lengthened_injective (name : String) :
    Function.Injective fun k => fold (lengthened name k) := by
  intro j k h
  have hlength := congrArg (fun s : String => s.toList.length) h
  simp only [length_fold_lengthened] at hlength
  omega

namespace NamePool

variable {p : NamePool} {name : String} {k : Nat}

/-- **A bound on taken names in a row**: the first `k` of the longer names have different folded forms, so
that they cannot all be taken unless `k` folded forms are. -/
theorem le_card_of_taken (h : ∀ j < k, fold (lengthened name j) ∈ p.taken) :
    k ≤ p.taken.toFinset.card := by
  have hmaps : ∀ j ∈ Finset.range k, fold (lengthened name j) ∈ p.taken.toFinset := by
    intro j hj
    rw [List.mem_toFinset]
    exact h j (Finset.mem_range.mp hj)
  have hcard := Finset.card_le_card_of_injOn _ hmaps (fold_lengthened_injective name).injOn
  rwa [Finset.card_range] at hcard

/-- Some longer name is new. -/
theorem exists_new (p : NamePool) (name : String) : ∃ k, fold (lengthened name k) ∉ p.taken := by
  by_contra h
  have htaken : ∀ k, fold (lengthened name k) ∈ p.taken := by simpa using h
  have hle : p.taken.toFinset.card + 1 ≤ p.taken.toFinset.card :=
    le_card_of_taken fun j _ => htaken j
  omega

/-- **Lengthening ends at the first new name**, by induction on the number of steps to it. -/
theorem lengthen_eq {rounds : Nat} (htaken : ∀ j < k, fold (lengthened name j) ∈ p.taken)
    (hnew : fold (lengthened name k) ∉ p.taken) (hrounds : k ≤ rounds) :
    p.lengthen rounds name = lengthened name k := by
  induction k generalizing name rounds with
  | zero =>
    rw [lengthened_zero] at hnew ⊢
    cases rounds with
    | zero => rfl
    | succ rounds => rw [lengthen, if_neg fun h => hnew (List.contains_iff_mem.mp h)]
  | succ k ih =>
    obtain ⟨rounds, rfl⟩ : ∃ n, rounds = n + 1 := ⟨rounds - 1, by omega⟩
    have hfirst := htaken 0 (Nat.succ_pos k)
    rw [lengthened_zero] at hfirst
    rw [lengthen, if_pos (List.contains_iff_mem.mpr hfirst), lengthened_succ]
    rw [lengthened_succ] at hnew
    apply ih _ hnew (Nat.le_of_succ_le_succ hrounds)
    intro j hj
    rw [← lengthened_succ]
    exact htaken (j + 1) (Nat.succ_lt_succ hj)

/-! ### Names that are handed out in turn -/

/-- A name is asked for: one that is given, or any one of a kind. -/
inductive Request where
  | claim (name : String)
  | fresh (kind : NameKind)

variable {σ : Type}

/-- The name that is handed out for a request, and the pool then. -/
def answer (r : Stream σ) (p : NamePool) : Request → Draw σ (String × NamePool)
  | .claim name => pure (p.claim name)
  | .fresh kind => p.fresh r kind

/-- The names that are handed out for requests in turn. -/
def answerAll (r : Stream σ) (p : NamePool) : List Request → Draw σ (List String × NamePool)
  | [] => pure ([], p)
  | request :: requests => do
      let (name, p) ← p.answer r request
      let (names, p) ← p.answerAll r requests
      pure (name :: names, p)

/-- Claims for several names, as for the values of an enumeration, are requests in turn. -/
theorem answerAll_claims (r : Stream σ) (p : NamePool) (names : List String) :
    p.answerAll r (names.map .claim) = pure (p.claimAll names) := by
  induction names generalizing p with
  | nil => rfl
  | cons name names ih =>
    show (pure (p.claim name) >>= fun x => x.2.answerAll r (names.map .claim) >>= fun y =>
      pure (x.1 :: y.1, y.2)) = _
    rw [pure_bind, ih, pure_bind]
    rfl

/-- So are draws of several names, as for the types of a file. -/
theorem answerAll_types (r : Stream σ) (p : NamePool) (n : Nat) :
    p.answerAll r (List.replicate n (.fresh .type)) = freshTypes r n p := by
  induction n generalizing p with
  | zero => rfl
  | succ n ih =>
    show (p.fresh r .type >>= fun x => x.2.answerAll r (List.replicate n (.fresh .type)) >>= fun y =>
      pure (x.1 :: y.1, y.2)) = _
    simp only [ih]
    rfl

/-- **One request.**  The name is new, and it is the only one that is taken in addition. -/
theorem answer_gives (r : Stream σ) (p : NamePool) (request : Request) :
    (p.answer r request).Gives fun x => fold x.1 ∉ p.taken ∧ x.2.taken = fold x.1 :: p.taken := by
  cases request with
  | claim name =>
    have hnew := fold_lengthen_not_mem p p.taken.length name (List.length_filter_le _ _)
    exact .pure ⟨hnew, rfl⟩
  | fresh kind => exact .bind (freshWithin_new r kind _ _) fun _ hname => .pure ⟨hname.1, rfl⟩

/-- **Requests in turn**, by induction on them: what is handed out is new, to the pool and to each other,
and it is all that is taken in addition. -/
theorem answerAll_gives (r : Stream σ) (p : NamePool) (requests : List Request) :
    (p.answerAll r requests).Gives fun x =>
      x.1.length = requests.length ∧ (x.1.map fold).Nodup ∧ (∀ name ∈ x.1, fold name ∉ p.taken) ∧
        x.2.taken = (x.1.map fold).reverse ++ p.taken := by
  induction requests generalizing p with
  | nil => exact .pure ⟨rfl, List.nodup_nil, nofun, rfl⟩
  | cons request requests ih =>
    refine .bind (answer_gives r p request) fun ⟨name, q⟩ ⟨hnew, htaken⟩ => ?_
    refine .bind (ih q) fun ⟨names, s⟩ ⟨hlength, hnodup, hrest, hall⟩ => .pure ?_
    simp only at hnew htaken hlength hnodup hrest hall
    rw [htaken] at hrest hall
    refine ⟨?_, ?_, ?_, ?_⟩
    · rw [List.length_cons, List.length_cons, hlength]
    · rw [List.map_cons, List.nodup_cons]
      refine ⟨fun hmem => ?_, hnodup⟩
      obtain ⟨other, hother, heq⟩ := List.mem_map.mp hmem
      apply hrest other hother
      rw [heq]
      exact List.mem_cons_self
    · intro other hother
      rcases List.mem_cons.mp hother with rfl | hother
      · exact hnew
      · exact fun hmem => hrest other hother (List.mem_cons_of_mem _ hmem)
    · show s.taken = (fold name :: names.map fold).reverse ++ p.taken
      rw [hall, List.reverse_cons, List.append_assoc, List.singleton_append]

/-- **Claiming ends, and hands out the first name that is new.**  A claimed name is the given one with the
least number of `_X` behind it for which the folded form is not taken.  There are no more of them than there
are different folded forms that are taken, so that no greater number of rounds changes anything, and the
folded form of the new name is all that is taken in addition.  So whatever is claimed and drawn in turn, the
folded forms of all names are different. -/
theorem claim_least (r : Stream σ) (p : NamePool) (name : String) (requests : List Request) :
    (∃ k ≤ p.taken.toFinset.card,
      (p.claim name).1 = lengthened name k ∧
      fold (lengthened name k) ∉ p.taken ∧
      (∀ j < k, fold (lengthened name j) ∈ p.taken) ∧
      (∀ rounds, k ≤ rounds → p.lengthen rounds name = lengthened name k) ∧
      (p.claim name).2.taken = fold (lengthened name k) :: p.taken) ∧
    (p.answerAll r requests).Gives fun x =>
      x.1.length = requests.length ∧ (x.1.map fold).Nodup ∧ (∀ name ∈ x.1, fold name ∉ p.taken) ∧
        x.2.taken = (x.1.map fold).reverse ++ p.taken := by
  refine ⟨?_, answerAll_gives r p requests⟩
  have hnew := Nat.find_spec (exists_new p name)
  have htaken : ∀ j < Nat.find (exists_new p name), fold (lengthened name j) ∈ p.taken := by
    intro j hj
    exact not_not.mp (Nat.find_min (exists_new p name) hj)
  have hcard := le_card_of_taken htaken
  have hclaim : (p.claim name).1 = lengthened name (Nat.find (exists_new p name)) :=
    lengthen_eq htaken hnew (Nat.le_trans hcard (List.toFinset_card_le _))
  refine ⟨_, hcard, hclaim, hnew, htaken, fun rounds h => lengthen_eq htaken hnew h, ?_⟩
  rw [← hclaim]
  rfl

end NamePool

end MessageIdl.Corpus
