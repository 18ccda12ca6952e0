import SiteMacros.Proofs.Lexemes

/-!
# What parsers take of a text

A run of a parser over a text of known lexemes is followed by what is left of them. `Takes` says
that a parser gets from some lexemes to others, wherever in a module they stand, and what it comes
to there; `Rejects` says that it gives up. Both go from the parts of a parser to the whole. So do
`Collects` and `Extends`, which say the same of the two loops, for every bound that the lexemes
that are left stay below: the bound that a loop is run with is such a one.
-/

namespace SiteMacros.Script

variable {α β : Type}

/-! ## Tokens of known lexemes -/

/-- These are the lexemes of the text from the token on. -/
def Token.At (t : Token) (ls : List Lexeme) : Prop :=
  ∃ offset cs, t = Scanner.scan offset cs ∧ Lexes ls cs

namespace Token.At

variable {t : Token} {l : Lexeme} {ls : List Lexeme}

theorem lexeme (h : t.At ls) : t.lexeme = ls.headD .endOfText := by
  obtain ⟨offset, cs, rfl, hlexes⟩ := h
  cases hlexes with
  | nil h => exact h offset
  | cons h _ => exact (h offset).lexeme

theorem onLine (h : t.At (.mark "=>" :: ls)) : t.onNewLine = false := by
  obtain ⟨offset, cs, rfl, hlexes⟩ := h
  cases hlexes with
  | cons h _ => exact (h offset).onLine rfl

theorem next (h : t.At (l :: ls)) : (Scanner.scan t.stop t.rest).At ls := by
  obtain ⟨offset, cs, rfl, hlexes⟩ := h
  cases hlexes with
  | cons h hrest => exact ⟨_, _, rfl, (h offset).after ▸ hrest⟩

theorem length_le (h : t.At ls) : ls.length ≤ t.here.length := by
  obtain ⟨offset, cs, rfl, hlexes⟩ := h
  cases hlexes with
  | nil _ => exact Nat.zero_le _
  | cons h hrest => exact Nat.lt_of_le_of_lt hrest.length_le (h offset).shorter

theorem isMark (h : t.At ls) (m : String) :
    t.isMark m = decide (ls.headD .endOfText = .mark m) := by
  rw [Token.isMark, h.lexeme]
  cases ls.headD .endOfText <;> simp

theorem isWord (h : t.At ls) (w : String) :
    t.isWord w = decide (ls.headD .endOfText = .name w false) := by
  rw [Token.isWord, h.lexeme]
  split <;> simp_all

theorem isName {m : String} (h : t.At (.mark m :: ls)) : t.isName = false := by
  rw [Token.isName, h.lexeme]
  rfl

end Token.At

/-! ## Parsers that get on -/

/-- Wherever these lexemes are left, the parser gets to where those are left, with a result that
has the property. -/
def Takes (p : Parse α) (s : Setting) (ls ls' : List Lexeme) (P : α → Prop) : Prop :=
  ∀ c : Cursor, c.token.At ls → ∃ a c', p s c = .ok (a, c') ∧ c'.token.At ls' ∧ P a

/-- Wherever these lexemes are left, the parser gives up. -/
def Rejects (p : Parse α) (s : Setting) (ls : List Lexeme) : Prop :=
  ∀ c : Cursor, c.token.At ls → ∃ e, p s c = .error e

variable {p : Parse α} {f : α → Parse β} {s : Setting} {l : Lexeme} {ls ls' ls'' : List Lexeme}
  {P : α → Prop} {Q : β → Prop} {m w : String}

namespace Takes

theorem imp {P' : α → Prop} (h : Takes p s ls ls' P) (hP : ∀ a, P a → P' a) :
    Takes p s ls ls' P' := by
  intro c hc
  obtain ⟨a, c', hrun, hc', ha⟩ := h c hc
  exact ⟨a, c', hrun, hc', hP a ha⟩

theorem bind (hp : Takes p s ls ls' P) (hf : ∀ a, P a → Takes (f a) s ls' ls'' Q) :
    Takes (p >>= f) s ls ls'' Q := by
  intro c hc
  obtain ⟨a, c', hrun, hc', ha⟩ := hp c hc
  obtain ⟨b, c'', hrun', hc'', hb⟩ := hf a ha c' hc'
  exact ⟨b, c'', by rw [Parse.run_bind, hrun]; exact hrun', hc'', hb⟩

/-- A parser whose result is known is followed by what is done with that result. -/
theorem bind_eq {a : α} (hp : Takes p s ls ls' (· = a)) (hf : Takes (f a) s ls' ls'' Q) :
    Takes (p >>= f) s ls ls'' Q :=
  bind hp fun _ h => h ▸ hf

theorem pure {a : α} (h : P a) : Takes (Pure.pure a) s ls ls P :=
  fun c hc => ⟨a, c, rfl, hc, h⟩

theorem ite_pos {b : Prop} [Decidable b] {q : Parse α} (hb : b) (h : Takes p s ls ls' P) :
    Takes (if b then p else q) s ls ls' P := by
  rwa [if_pos hb]

theorem ite_neg {b : Prop} [Decidable b] {q : Parse α} (hb : ¬b) (h : Takes p s ls ls' P) :
    Takes (if b then q else p) s ls ls' P := by
  rwa [if_neg hb]

theorem token : Takes Parse.token s ls ls (·.At ls) :=
  fun c hc => ⟨c.token, c, rfl, hc, hc⟩

theorem start : Takes Parse.start s ls ls fun _ => True :=
  bind token fun _ _ => pure trivial

theorem get : Takes (MonadState.get : Parse Cursor) s ls ls (·.token.At ls) :=
  fun c hc => ⟨c, c, rfl, hc, hc⟩

/-- Back at a cursor, what is left is what was left there. -/
theorem set {c : Cursor} (hc : c.token.At ls') :
    Takes (MonadStateOf.set c : Parse PUnit) s ls ls' fun _ => True :=
  fun _ _ => ⟨⟨⟩, c, rfl, hc, trivial⟩

theorem read : Takes (MonadReaderOf.read : Parse Setting) s ls ls (· = s) :=
  fun c hc => ⟨s, c, rfl, hc, rfl⟩

theorem types : Takes Parse.types s ls ls (· = s.language.types) :=
  bind_eq read (pure rfl)

theorem peek : Takes Parse.peek s (l :: ls) (l :: ls) (·.At ls) :=
  bind token fun _ ht => pure ht.next

/-- What the token after the cursor is does not matter. -/
theorem peek_any : Takes Parse.peek s ls ls fun _ => True :=
  bind token fun _ _ => pure trivial

theorem step : Takes Parse.step s (l :: ls) ls fun _ => True :=
  bind token fun _ ht _ _ => ⟨(), _, rfl, ht.next, trivial⟩

theorem finish (k : Construct) (start : Nat) (parts : List Node) :
    Takes (Parse.finish k start parts) s ls ls fun n => ∃ span, n = .group k span parts :=
  fun c hc => ⟨_, c, rfl, hc, ⟨start, c.reached⟩, rfl⟩

theorem require {b : Bool} (h : b = true) : Takes (Parse.require b) s ls ls fun _ => True :=
  ite_pos h (pure trivial)

theorem atMark (m : String) :
    Takes (Parse.atMark m) s ls ls (· = decide (ls.headD .endOfText = .mark m)) :=
  bind token fun _ ht => pure (ht.isMark m)

theorem atWord (w : String) :
    Takes (Parse.atWord w) s ls ls (· = decide (ls.headD .endOfText = .name w false)) :=
  bind token fun _ ht => pure (ht.isWord w)

theorem eat : Takes (Parse.eat m) s (.mark m :: ls) ls (· = true) :=
  bind_eq (atMark m) (ite_pos (decide_eq_true rfl) (bind step fun _ _ => pure rfl))

theorem eat_not (h : ls.headD .endOfText ≠ .mark m) : Takes (Parse.eat m) s ls ls (· = false) :=
  bind_eq (atMark m) (ite_neg (by simpa using h) (pure rfl))

theorem eatWord : Takes (Parse.eatWord w) s (.name w false :: ls) ls (· = true) :=
  bind_eq (atWord w) (ite_pos (decide_eq_true rfl) (bind step fun _ _ => pure rfl))

theorem expect : Takes (Parse.expect m) s (.mark m :: ls) ls fun _ => True :=
  bind_eq eat (pure trivial)

theorem expectWord : Takes (Parse.expectWord w) s (.name w false :: ls) ls fun _ => True :=
  bind_eq eatWord (pure trivial)

theorem within {g : Setting → Setting} (h : Takes p (g s) ls ls' P) :
    Takes (Parse.within g p) s ls ls' P :=
  h

theorem attempt (h : Takes p s ls ls' P) :
    Takes (Parse.attempt p) s ls ls' fun o => ∃ a, o = some a ∧ P a := by
  intro c hc
  obtain ⟨a, c', hrun, hc', ha⟩ := h c hc
  exact ⟨some a, c', by rw [Parse.attempt, hrun], hc', a, rfl, ha⟩

end Takes

/-! ## Parsers that give up -/

namespace Rejects

theorem fail : Rejects (Parse.fail : Parse α) s ls :=
  fun _ _ => ⟨_, rfl⟩

theorem bind_left (h : Rejects p s ls) : Rejects (p >>= f) s ls := by
  intro c hc
  obtain ⟨e, he⟩ := h c hc
  exact ⟨e, by rw [Parse.run_bind, he]; rfl⟩

theorem bind (hp : Takes p s ls ls' P) (hf : ∀ a, P a → Rejects (f a) s ls') :
    Rejects (p >>= f) s ls := by
  intro c hc
  obtain ⟨a, c', hrun, hc', ha⟩ := hp c hc
  obtain ⟨e, he⟩ := hf a ha c' hc'
  exact ⟨e, by rw [Parse.run_bind, hrun]; exact he⟩

theorem bind_eq {a : α} (hp : Takes p s ls ls' (· = a)) (hf : Rejects (f a) s ls') :
    Rejects (p >>= f) s ls :=
  bind hp fun _ h => h ▸ hf

theorem ite_pos {b : Prop} [Decidable b] {q : Parse α} (hb : b) (h : Rejects p s ls) :
    Rejects (if b then p else q) s ls := by
  rwa [if_pos hb]

theorem ite_neg {b : Prop} [Decidable b] {q : Parse α} (hb : ¬b) (h : Rejects p s ls) :
    Rejects (if b then q else p) s ls := by
  rwa [if_neg hb]

theorem require : Rejects (Parse.require false) s ls :=
  fail

theorem within {g : Setting → Setting} (h : Rejects p (g s) ls) :
    Rejects (Parse.within g p) s ls :=
  h

end Rejects

/-- The cursor stays where what is attempted is rejected. -/
theorem Takes.attempt_none (h : Rejects p s ls) :
    Takes (Parse.attempt p) s ls ls (· = none) := by
  intro c hc
  obtain ⟨e, he⟩ := h c hc
  exact ⟨none, c, by rw [Parse.attempt, he], hc, rfl⟩

theorem Rejects.many {p : Parse (Option α)} (h : Rejects p s ls) : Rejects (Parse.many p) s ls :=
  fun c hc =>
    have hcollect : Rejects (Parse.collect p (c.token.here.length + 1)) s ls := .bind_left h
    hcollect c hc

/-! ## Loops -/

/-- Whatever bound there is on the number of results, if the lexemes stay below it, the parser is
run until it has no result, and gets to where those lexemes are left. -/
def Collects (p : Parse (Option α)) (s : Setting) (ls ls' : List Lexeme) (Q : List α → Prop) :
    Prop :=
  ∀ bound, ls.length < bound → Takes (Parse.collect p bound) s ls ls' Q

namespace Collects

variable {p : Parse (Option α)} {Q R : List α → Prop}

theorem nil (h : Takes p s ls ls (· = none)) (hQ : Q []) : Collects p s ls ls Q := by
  intro bound hbound
  obtain ⟨bound, rfl⟩ : ∃ k, bound = k + 1 := ⟨bound - 1, by omega⟩
  exact Takes.bind_eq h (Takes.pure hQ)

theorem cons (h : Takes p s ls ls' fun o => ∃ a, o = some a ∧ P a)
    (hlength : ls'.length < ls.length) (hrest : Collects p s ls' ls'' R)
    (hQ : ∀ a as, P a → R as → Q (a :: as)) : Collects p s ls ls'' Q := by
  intro bound hbound
  obtain ⟨bound, rfl⟩ : ∃ k, bound = k + 1 := ⟨bound - 1, by omega⟩
  refine Takes.bind h ?_
  rintro _ ⟨a, rfl, ha⟩
  exact Takes.bind (hrest bound (by omega)) fun as has => Takes.pure (hQ a as ha has)

theorem many (h : Collects p s ls ls' Q) : Takes (Parse.many p) s ls ls' Q :=
  fun c hc => h (c.token.here.length + 1) (Nat.lt_succ_of_le hc.length_le) c hc

end Collects

/-- Nothing is collected where there is no first result. -/
theorem Takes.many_nil {p : Parse (Option α)} (h : Takes p s ls ls (· = none)) :
    Takes (Parse.many p) s ls ls (· = []) :=
  Collects.many (.nil (Q := (· = [])) h rfl)

/-- Whatever bound there is on the number of steps, if the lexemes stay below it, the value is
changed as long as there is something to change it, and the last one has the property. -/
def Extends (p : α → Parse (Option α)) (a : α) (s : Setting) (ls ls' : List Lexeme)
    (P : α → Prop) : Prop :=
  ∀ bound, ls.length < bound → Takes (Parse.extendWith p a bound) s ls ls' P

namespace Extends

variable {p : α → Parse (Option α)} {a : α} {R : α → Prop}

theorem stop (h : Takes (p a) s ls ls (· = none)) (ha : P a) : Extends p a s ls ls P := by
  intro bound hbound
  obtain ⟨bound, rfl⟩ : ∃ k, bound = k + 1 := ⟨bound - 1, by omega⟩
  exact Takes.bind_eq h (Takes.pure ha)

theorem step (h : Takes (p a) s ls ls' fun o => ∃ b, o = some b ∧ R b)
    (hlength : ls'.length < ls.length) (hrest : ∀ b, R b → Extends p b s ls' ls'' P) :
    Extends p a s ls ls'' P := by
  intro bound hbound
  obtain ⟨bound, rfl⟩ : ∃ k, bound = k + 1 := ⟨bound - 1, by omega⟩
  refine Takes.bind h ?_
  rintro _ ⟨b, rfl, hb⟩
  exact hrest b hb bound (by omega)

theorem extend (h : Extends p a s ls ls' P) : Takes (Parse.extend p a) s ls ls' P :=
  fun c hc => h (c.token.here.length + 1) (Nat.lt_succ_of_le hc.length_le) c hc

end Extends

end SiteMacros.Script
