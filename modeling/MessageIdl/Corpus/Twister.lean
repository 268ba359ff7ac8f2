import MessageIdl.Corpus.Stream

/-!
# The Mersenne twister

The generator MT19937 of 32-bit words, started from an integer of any size.

* `Twister.ofSeed`: the state for a seed; a seed and its negative give the same state.
* `Twister.next`: the next word.
* `Twister.stream`: the random stream made of the words.
-/

namespace MessageIdl.Corpus

/-- The number of words of the state. -/
def stateSize : Nat := 624

/-- The words of the state, and how many of them have been used. -/
structure Twister where
  words : Vector UInt32 624
  used : Nat

namespace Twister

/-- The word at a place, counted around the end. -/
def wordAt (m : Vector UInt32 624) (i : Nat) : UInt32 := m.get (Fin.ofNat 624 i)

/-- The state with another word at a place, counted around the end. -/
def setWord (m : Vector UInt32 624) (i : Nat) (w : UInt32) : Vector UInt32 624 :=
  let i := Fin.ofNat 624 i
  m.set i.val w i.isLt

/-! ### The start -/

/-- A word mixed with its own two highest bits. -/
def fold30 (w : UInt32) : UInt32 := w ^^^ (w >>> 30)

/-- The state that a key is mixed into: each word comes from the one before it. -/
def initial : Vector UInt32 624 :=
  (List.range 623).foldl
    (fun m k => setWord m (k + 1) (1812433253 * fold30 (wordAt m k) + UInt32.ofNat (k + 1)))
    (setWord (Vector.replicate 624 0) 0 19650218)

/-- The words of a number in base 2 ^ 32, the lowest first; zero has one. -/
def keyOf (n : Nat) : List UInt32 :=
  if n < UInt32.size then [UInt32.ofNat n]
  else UInt32.ofNat n :: keyOf (n / UInt32.size)
termination_by n
decreasing_by
  rename_i h
  have hpos : 0 < UInt32.size := by decide
  exact Nat.div_lt_self (Nat.lt_of_lt_of_le hpos (Nat.le_of_not_lt h)) (by decide)

/-- The place after `i` in a round that leaves out place 0, together with the state, in which place 0
takes over the last word when the round ends. -/
def step (m : Vector UInt32 624) (i : Nat) : Vector UInt32 624 × Nat :=
  if i + 1 = stateSize then (setWord m 0 (wordAt m 623), 1) else (m, i + 1)

/-- Mixes the words of a key in, for `rounds` words of the state. -/
def mixKey (key : Array UInt32) : Nat → Vector UInt32 624 → Nat → Nat → Vector UInt32 624 × Nat
  | 0, m, i, _ => (m, i)
  | rounds + 1, m, i, j =>
      let mixed := (wordAt m i ^^^ (fold30 (wordAt m (i - 1)) * 1664525)) + key.getD j 0
        + UInt32.ofNat j
      let (m, i) := step (setWord m i mixed) i
      mixKey key rounds m i (if j + 1 = key.size then 0 else j + 1)

/-- Mixes the places in, for `rounds` words of the state. -/
def mixPlaces : Nat → Vector UInt32 624 → Nat → Vector UInt32 624
  | 0, m, _ => m
  | rounds + 1, m, i =>
      let mixed := (wordAt m i ^^^ (fold30 (wordAt m (i - 1)) * 1566083941)) - UInt32.ofNat i
      let (m, i) := step (setWord m i mixed) i
      mixPlaces rounds m i

/-- The state for a seed. -/
def ofSeed (seed : Int) : Twister :=
  let key := (keyOf seed.natAbs).toArray
  let (m, i) := mixKey key (max stateSize key.size) initial 1 0
  { words := setWord (mixPlaces (stateSize - 1) m i) 0 0x80000000, used := stateSize }

/-! ### Words -/

/-- The highest bit of one word and the other bits of the next one, shifted and mixed. -/
def twist (high low : UInt32) : UInt32 :=
  let y := (high &&& 0x80000000) ||| (low &&& 0x7fffffff)
  (y >>> 1) ^^^ (if y &&& 1 = 1 then 0x9908b0df else 0)

/-- The state after all its words have been used. -/
def refill (m : Vector UInt32 624) : Vector UInt32 624 :=
  (List.range 624).foldl
    (fun m k =>
      setWord m k (wordAt m (k + 397) ^^^ twist (wordAt m k) (wordAt m (k + 1)))) m

/-- A word of the state as it is given out. -/
def temper (y : UInt32) : UInt32 :=
  let y := y ^^^ (y >>> 11)
  let y := y ^^^ ((y <<< 7) &&& 0x9d2c5680)
  let y := y ^^^ ((y <<< 15) &&& 0xefc60000)
  y ^^^ (y >>> 18)

/-- The next word. -/
def next (t : Twister) : UInt32 × Twister :=
  if t.used < stateSize then (temper (wordAt t.words t.used), { t with used := t.used + 1 })
  else
    let m := refill t.words
    (temper (wordAt m 0), { words := m, used := 1 })

/-! ### Draws -/

/-- The number of binary digits of a number. -/
def bitLength (n : Nat) : Nat := if n = 0 then 0 else Nat.log2 n + 1

/-- Draws as many bits as `n` has until they form a number below `n`, for at most `tries` times. -/
def belowWithin (n : Nat) : Nat → Twister → Option (Nat × Twister)
  | 0, _ => none
  | tries + 1, t =>
      let (w, t) := t.next
      let k := (w >>> UInt32.ofNat (32 - bitLength n)).toNat
      if k < n then some (k, t) else belowWithin n tries t

theorem belowWithin_lt (n : Nat) :
    ∀ (tries k : Nat) (t t' : Twister), belowWithin n tries t = some (k, t') → k < n
  | 0, _, _, _, h => by simp [belowWithin] at h
  | tries + 1, k, t, t', h => by
    simp only [belowWithin] at h
    split at h
    · rename_i hlt
      obtain ⟨rfl, -⟩ := Prod.mk.inj (Option.some.inj h)
      exact hlt
    · exact belowWithin_lt n tries k _ t' h

/-- The numerator of a fraction, from 27 bits of one word and 26 bits of the next. -/
def fraction (t : Twister) : Nat × Twister :=
  let (a, t) := t.next
  let (b, t) := t.next
  ((a >>> 5).toNat <<< 26 + (b >>> 6).toNat, t)

/-- A word shifted right by `k` places has `32 - k` binary digits left. -/
theorem toNat_shiftRight_lt (w s : UInt32) (k : Nat) (hs : s.toNat = k) (hk : k < 32) :
    (w >>> s).toNat < 1 <<< (32 - k) := by
  rw [Nat.one_shiftLeft, UInt32.toNat_shiftRight, Nat.shiftRight_eq_div_pow, hs, Nat.mod_eq_of_lt hk]
  refine Nat.div_lt_of_lt_mul ?_
  rw [← Nat.pow_add, Nat.add_sub_cancel' (Nat.le_of_lt hk)]
  exact w.toNat_lt

theorem fraction_lt (t : Twister) : (fraction t).1 < fractions := by
  have high := toNat_shiftRight_lt t.next.1 5 5 rfl (by decide)
  have low := toNat_shiftRight_lt t.next.2.next.1 6 6 rfl (by decide)
  simp only [fraction, fractions, Nat.shiftLeft_eq] at high low ⊢
  omega

/-- How often a refused draw is repeated. -/
def tries : Nat := 100000

/-- The random stream of a twister. -/
def stream : Stream Twister where
  below n t := belowWithin n tries t
  fraction := fraction
  patience := tries
  below_lt n k s s' h := belowWithin_lt n tries k s s' h
  fraction_lt := fraction_lt

end Twister

end MessageIdl.Corpus
