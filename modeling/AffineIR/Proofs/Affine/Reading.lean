import AffineIR.Proofs.Affine.Exact

/-
  The text of an expression says what its value is.

  A text is read from left to right.  Blanks and parentheses end
  a word; a parenthesis opens a sum of its own, whose value is an
  operand of the sum around it.  A minus sign belongs to the
  operand behind it.  Reading the text of an expression gives its
  value, so that expressions with the same text have the same
  values.

  Main result: `Affine.Expr.value?_eq_of_text`
-/

namespace AffineIR

open List

namespace Affine

------
-- Reading
------

/- An operation on values that may be missing. -/
def lift (f : Int → Int → Option Int) (x y : Option Int) : Option Int :=
  x.bind fun a => y.bind (f a)

def plus? : Option Int → Option Int → Option Int := lift fun a b => some (a + b)

def opposite : Option Int → Option Int := Option.map Neg.neg

/- A sum of which a part has been read. -/
structure OpenSum where
  /- What the items before the present one add up to. -/
  before : Option Int := some 0
  item : Option Int := none
  /- What the next operand makes of the item. -/
  join : Option Int → Option Int := id

namespace OpenSum

def total (s : OpenSum) : Option Int := plus? s.before s.item

def take (s : OpenSum) (v : Option Int) : OpenSum := { before := s.before, item := s.join v }

def operator (f : Int → Int → Option Int) (s : OpenSum) : OpenSum :=
  { s with join := lift f s.item }

end OpenSum

/- The values of the dimensions and of the symbols. -/
variable (x : List Int × List Int)

/- An input by its number, or a number. -/
def atom : List Char → Option Int
  | '-' :: w => opposite (atom w)
  | 'd' :: w => x.1[Nat.ofDigitChars 10 w 0]?
  | 's' :: w => x.2[Nat.ofDigitChars 10 w 0]?
  | w => some (Nat.ofDigitChars 10 w 0)

/- What a word makes of a sum. -/
def OpenSum.read (s : OpenSum) : List Char → OpenSum
  | [] => s
  | '+' :: _ => { before := s.total }
  | ['-'] => { before := s.total, join := opposite }
  | '*' :: _ => s.operator fun a b => some (a * b)
  | 'm' :: _ => s.operator (Word.divided? Int.fmod)
  | 'f' :: _ => s.operator (Word.divided? Int.fdiv)
  | 'c' :: _ => s.operator (Word.divided? Word.ceilDiv)
  | w => s.take (atom x w)

/- The sum that is being read, those around it, and the word so far. -/
structure Reader (x : List Int × List Int) where
  word : List Char := []
  outer : List OpenSum := []
  here : OpenSum := {}

namespace Reader

variable {x} {r : Reader x} {o t u : String}

def finish (r : Reader x) : Reader x :=
  { outer := r.outer, here := r.here.read x r.word }

/- A sign in front of a parenthesis belongs to what it encloses. -/
def enter (r : Reader x) : Reader x where
  outer := (if r.word = [] then r.here else { r.here with join := r.here.join ∘ opposite }) ::
    r.outer

def leave (r : Reader x) : Reader x :=
  match r.outer with
  | [] => r
  | s :: outer => { outer := outer, here := s.take r.here.total }

def step (r : Reader x) (c : Char) : Reader x :=
  if c = ' ' then r.finish
  else if c = '(' then r.enter
  else if c = ')' then r.finish.leave
  else { r with word := r.word ++ [c] }

def run (r : Reader x) (text : String) : Reader x :=
  text.toList.foldl step r

theorem run_append (r : Reader x) (t u : String) : r.run (t ++ u) = (r.run t).run u := by
  rw [run, String.toList_append, foldl_append, run, run]

/- A word between blanks changes the sum in front of it. -/
theorem run_between {outer : List OpenSum} {s : OpenSum} (change : OpenSum → OpenSum)
    (hChange : ∀ r : Reader x,
      r.run o = { outer := r.outer, here := change r.finish.here })
    (hRun : (r.run t).finish = { outer := outer, here := s }) :
    r.run (t ++ o ++ u) = Reader.run { outer := outer, here := change s } u := by
  have hOuter : (r.run t).outer = outer := congrArg Reader.outer hRun
  rw [run_append, run_append, hChange, hOuter, hRun]

/- The characters of a word are collected. -/
theorem foldl_word {w : List Char} (hPlain : ∀ c ∈ w, c ≠ ' ' ∧ c ≠ '(' ∧ c ≠ ')') :
    w.foldl step r = { r with word := r.word ++ w } := by
  induction w generalizing r with
  | nil => simp
  | cons c w ih =>
    obtain ⟨⟨hBlank, hOpen, hClose⟩, hRest⟩ := forall_mem_cons.mp hPlain
    rw [foldl_cons, ih hRest, step, if_neg hBlank, if_neg hOpen, if_neg hClose]
    simp

end Reader

------
-- Texts
------

variable {f : Int → Int → Option Int} {o t u : String} {v w : Option Int}

/- At the start of an item, the text adds a value. -/
def Adds (t : String) (v : Option Int) : Prop :=
  ∀ outer before, ∃ s : OpenSum, s.total = plus? before v ∧
    (Reader.run { outer := outer, here := { before := before } } t).finish =
      ({ outer := outer, here := s } : Reader x)

/- In the place of an operand, also behind a sign, the text stands for a value. -/
def Stands (t : String) (v : Option Int) : Prop :=
  ∀ outer here,
    (Reader.run { outer := outer, here := here } t).finish =
      ({ outer := outer, here := here.take v } : Reader x) ∧
    (Reader.run { word := ['-'], outer := outer, here := here } t).finish =
      ({ outer := outer, here := here.take (opposite v) } : Reader x)

variable {x}

theorem plus?_assoc (x y z : Option Int) : plus? (plus? x y) z = plus? x (plus? y z) := by
  cases x <;> cases y <;> cases z <;> simp [plus?, lift, add_assoc]

theorem zero_plus? (v : Option Int) : plus? (some 0) v = v := by
  cases v <;> simp [plus?, lift]

theorem Adds.plus (hFirst : Adds x t v)
    (hSecond : Adds x u w) : Adds x (t ++ " + " ++ u) (plus? v w) := by
  intro outer before
  obtain ⟨s, hTotal, hRun⟩ := hFirst outer before
  obtain ⟨s', hTotal', hRun'⟩ := hSecond outer s.total
  refine ⟨s', by rw [hTotal', hTotal, plus?_assoc], ?_⟩
  rw [Reader.run_between (fun s => { before := s.total }) (fun _ => rfl) hRun, hRun']

theorem Adds.minus (hFirst : Adds x t v) (hSecond : Stands x u w) :
    Adds x (t ++ " - " ++ u) (plus? v (opposite w)) := by
  intro outer before
  obtain ⟨s, hTotal, hRun⟩ := hFirst outer before
  refine ⟨{ before := s.total, item := opposite w }, ?_, ?_⟩
  · rw [OpenSum.total, hTotal, plus?_assoc]
  · rw [Reader.run_between (fun s => { before := s.total, join := opposite })
      (fun _ => rfl) hRun]
    exact (hSecond outer _).1

theorem Stands.operator
    (hOperator : ∀ r : Reader x,
      r.run o = { outer := r.outer, here := r.finish.here.operator f })
    (hFirst : Stands x t v)
    (hSecond : Stands x u w) : Adds x (t ++ o ++ u) (lift f v w) := by
  refine fun outer before => ⟨{ before := before, item := lift f v w }, rfl, ?_⟩
  rw [Reader.run_between _ hOperator (hFirst outer _).1]
  exact (hSecond outer _).1

theorem Stands.adds (hStands : Stands x t v) : Adds x t v :=
  fun outer _ => ⟨_, rfl, (hStands outer _).1⟩

theorem Stands.negated (hStands : Stands x t v) : Adds x ("-" ++ t) (opposite v) := by
  refine fun outer before => ⟨OpenSum.take { before := before } (opposite v), rfl, ?_⟩
  rw [Reader.run_append]
  exact (hStands outer _).2

theorem Adds.enclosed (hAdds : Adds x t v) : Stands x ("(" ++ t ++ ")") v := by
  have hEnclosed (outer : List OpenSum) (here : OpenSum) :
      (((Reader.run { outer := here :: outer } t).finish).leave.finish : Reader x) =
        { outer := outer, here := here.take v } := by
    obtain ⟨s, hTotal, hRun⟩ := hAdds (here :: outer) (some 0)
    rw [zero_plus?] at hTotal
    rw [hRun, ← hTotal]
    rfl
  intro outer here
  rw [Reader.run_append, Reader.run_append, Reader.run_append, Reader.run_append]
  exact ⟨hEnclosed outer here, hEnclosed outer { here with join := here.join ∘ opposite }⟩

------
-- Words
------

/- A word for a value. -/
structure Spells (x : List Int × List Int) (w : List Char) (v : Option Int) : Prop where
  plain : ∀ c ∈ w, c ≠ ' ' ∧ c ≠ '(' ∧ c ≠ ')'
  some : w ≠ []
  atom : atom x w = v
  read (s : OpenSum) : s.read x w = s.take v

theorem Spells.stands {w : List Char} (hSpells : Spells x w v)
    (hText : t.toList = w) : Stands x t v := by
  intro outer here
  rw [Reader.run, Reader.run, hText, Reader.foldl_word hSpells.plain,
    Reader.foldl_word hSpells.plain]
  refine ⟨congrArg _ (hSpells.read here), ?_⟩
  cases w with
  | nil => exact absurd rfl hSpells.some
  | cons c w => exact hSpells.atom ▸ rfl

theorem spells_digits (n : Nat) : Spells x (Nat.toDigits 10 n) (some n) := by
  have hDigit {c : Char} (hMem : c ∈ Nat.toDigits 10 n) : c.isDigit :=
    Nat.isDigit_of_mem_toDigits (by decide) (by decide) hMem
  have hPlain : ∀ c ∈ Nat.toDigits 10 n, c ≠ ' ' ∧ c ≠ '(' ∧ c ≠ ')' := by
    intro c hMem
    refine ⟨?_, ?_, ?_⟩ <;> rintro rfl <;> cases hDigit hMem
  have hNumber := Nat.ofDigitChars_ten_toDigits (n := n)
  rcases hDigits : Nat.toDigits 10 n with _ | ⟨c, w⟩
  · cases Nat.toDigits_ne_nil hDigits
  have hFirst : c.isDigit := hDigit (hDigits ▸ mem_cons_self)
  rw [hDigits] at hNumber hPlain
  have hAtom : atom x (c :: w) = some n := by
    unfold atom
    split <;> simp_all
  refine ⟨hPlain, nofun, hAtom, fun s => ?_⟩
  unfold OpenSum.read
  split <;> simp_all

theorem Spells.negated {w : List Char}
    (hSpells : Spells x w v) : Spells x ('-' :: w) (opposite v) := by
  refine ⟨forall_mem_cons.mpr ⟨by decide, hSpells.plain⟩, nofun, ?_, fun s => ?_⟩
  · rw [Affine.atom, hSpells.atom]
  · cases w with
    | nil => exact absurd rfl hSpells.some
    | cons c w => exact hSpells.atom ▸ rfl

theorem spells_dim (p : Nat) : Spells x ('d' :: Nat.toDigits 10 p) x.1[p]? := by
  have hAtom : atom x ('d' :: Nat.toDigits 10 p) = x.1[p]? := by
    rw [atom, Nat.ofDigitChars_ten_toDigits]
  exact ⟨forall_mem_cons.mpr ⟨by decide, (spells_digits (x := x) p).plain⟩, nofun, hAtom,
    fun s => congrArg s.take hAtom⟩

theorem spells_symbol (p : Nat) : Spells x ('s' :: Nat.toDigits 10 p) x.2[p]? := by
  have hAtom : atom x ('s' :: Nat.toDigits 10 p) = x.2[p]? := by
    rw [atom, Nat.ofDigitChars_ten_toDigits]
  exact ⟨forall_mem_cons.mpr ⟨by decide, (spells_digits (x := x) p).plain⟩, nofun, hAtom,
    fun s => congrArg s.take hAtom⟩

------
-- Expressions
------

namespace Expr

variable {e e' : Expr}

theorem stands_atom (hAtom : e.IsAtom) : Stands x (e.render {}) (e.value? x.1 x.2) := by
  cases e with
  | dim p => exact (spells_dim p).stands (String.toList_append.trans (by simp))
  | symbol p => exact (spells_symbol p).stands (String.toList_append.trans (by simp))
  | constant c =>
    cases c with
    | ofNat n => exact (spells_digits n).stands Nat.toList_repr
    | negSucc n =>
      exact (spells_digits (n + 1)).negated.stands (String.toList_append.trans (by simp))
  | _ => cases hAtom

theorem stands_enclose (hAdds : Adds x (e.render {}) (e.value? x.1 x.2)) :
    Stands x (e.enclose (e.render {})) (e.value? x.1 x.2) := by
  unfold enclose
  split
  · exact stands_atom ‹_›
  · exact hAdds.enclosed

theorem value?_negated (e : Expr) (dims symbols : List Int) :
    (mul e (constant (-1))).value? dims symbols = opposite (e.value? dims symbols) := by
  cases hValue : e.value? dims symbols <;> simp [value?, hValue, opposite]

/- The text of an expression is read as its value. -/
theorem adds_render (e : Expr) : Adds x (e.render {}) (e.value? x.1 x.2) := by
  induction e using render.induct with
  | case1 p => exact (stands_atom (e := dim p) trivial).adds
  | case2 p => exact (stands_atom (e := symbol p) trivial).adds
  | case3 c => exact (stands_atom (e := constant c) trivial).adds
  | case4 l c hNeg ih =>
    have hMinus := ih.minus ((spells_digits c.natAbs).stands Nat.toList_repr)
    have hValue : opposite (some (c.natAbs : Int)) = some c := congrArg some (by omega)
    rw [hValue] at hMinus
    rwa [render, if_pos hNeg]
  | case5 l c hNonneg ih =>
    rw [render, if_neg hNonneg]
    exact ih.plus (stands_atom (e := constant c) trivial).adds
  | case6 l r ihL ihR =>
    rw [render, if_pos rfl]
    have hMinus := ihL.minus (stands_enclose ihR)
    rwa [← value?_negated] at hMinus
  | case7 l r k hOther ihL ihR ihK =>
    rw [render, if_neg hOther]
    exact ihL.plus ((stands_enclose ihR).operator (fun _ => rfl) (stands_enclose ihK))
  | case8 l r hConstant hProduct ihL ihR =>
    rw [render]
    · exact ihL.plus ihR
    all_goals assumption
  | case9 l ih =>
    rw [render, if_pos rfl, value?_negated]
    exact (stands_enclose ih).negated
  | case10 l r hOther ihL ihR =>
    rw [render, if_neg hOther]
    exact (stands_enclose ihL).operator (fun _ => rfl) (stands_enclose ihR)
  | case11 l r ihL ihR | case12 l r ihL ihR | case13 l r ihL ihR =>
    exact (stands_enclose ihL).operator (fun _ => rfl) (stands_enclose ihR)

/- Expressions with the same text have the same values. -/
theorem value?_eq_of_text (hText : e.text = e'.text)
    (dims symbols : List Int) : e.value? dims symbols = e'.value? dims symbols := by
  obtain ⟨s, hTotal, hRun⟩ := adds_render (x := (dims, symbols)) e [] (some 0)
  obtain ⟨s', hTotal', hRun'⟩ := adds_render (x := (dims, symbols)) e' [] (some 0)
  have hRender : e.render {} = e'.render {} := hText
  rw [hRender, hRun'] at hRun
  cases hRun
  rw [← zero_plus? (e.value? dims symbols), ← hTotal, hTotal', zero_plus?]

/- Both are `d0 + d1 - 5`. -/
theorem value?_eq_of_text_sum :
    (((dim 0).add (dim 1)).add (constant (-5))).value? [3, 4] [] =
      ((dim 0).add ((dim 1).add ((constant 5).mul (constant (-1))))).value? [3, 4] [] :=
  value?_eq_of_text rfl [3, 4] []

end Expr

end Affine

end AffineIR
