import SiteMacros.Script.Parse

/-!
# What parsers come to

The equations at the beginning take a run apart. Three things are said of all runs of a parser.
`Yields p P` says that `P` holds of what `p` comes to, wherever it is run. `Reads p P` says the
same of runs that start at a token that has been scanned, and that they end at such a token.
Every step goes to a scanned token, so it is only the first token of a run, and one that was put
at the cursor by hand, of which this has to be shown. `YieldsFrom p P` is what remains of it if
the end of the run does not matter.

All three go from the parts of a parser to the whole.
-/

namespace SiteMacros.Script

/-! ## Runs of parsers -/

namespace Parse

variable {α β : Type} (s : Setting) (c : Cursor)

theorem run_bind (p : Parse α) (f : α → Parse β) :
    (p >>= f) s c = (p s c).bind fun ac => f ac.1 s ac.2 := rfl

theorem run_token : token s c = .ok (c.token, c) := rfl

theorem run_pure (a : α) : (pure a : Parse α) s c = .ok (a, c) := rfl

theorem run_read : (read : Parse Setting) s c = .ok (s, c) := rfl

theorem run_extend (p : α → Parse (Option α)) (a : α) :
    extend p a s c = extendWith p a (c.token.here.length + 1) s c := rfl

theorem run_extendWith_some {p : α → Parse (Option α)} {a b : α} {c' : Cursor}
    (h : p a s c = .ok (some b, c')) (bound : Nat) :
    extendWith p a (bound + 1) s c = extendWith p b bound s c' := by
  rw [extendWith, run_bind, h]
  rfl

theorem run_extendWith_none {p : α → Parse (Option α)} {a : α} {c' : Cursor}
    (h : p a s c = .ok (none, c')) (bound : Nat) :
    extendWith p a (bound + 1) s c = .ok (a, c') := by
  rw [extendWith, run_bind, h]
  rfl

theorem run_extendWith_error {p : α → Parse (Option α)} {a : α} {e : SyntaxError}
    (h : p a s c = .error e) (bound : Nat) : extendWith p a (bound + 1) s c = .error e := by
  rw [extendWith, run_bind, h]
  rfl

end Parse

/-! ## Properties of parsers -/

/-- Has the token been scanned? -/
def Token.IsScanned (t : Token) : Prop :=
  ∃ offset cs, t = Scanner.scan offset cs

variable {α β : Type}

/-- What the parser comes to has the property. -/
def Yields (p : Parse α) (P : α → Prop) : Prop :=
  ∀ s c a c', p s c = .ok (a, c') → P a

/-- From a token that has been scanned the parser gets to another one, with a result that has
the property. -/
def Reads (p : Parse α) (P : α → Prop) : Prop :=
  ∀ s c a c', c.token.IsScanned → p s c = .ok (a, c') → c'.token.IsScanned ∧ P a

theorem run_bind_ok {p : Parse α} {f : α → Parse β} {s : Setting} {c c'' : Cursor} {b : β}
    (h : (p >>= f) s c = .ok (b, c'')) :
    ∃ a c', p s c = .ok (a, c') ∧ f a s c' = .ok (b, c'') := by
  rw [Parse.run_bind] at h
  rcases hp : p s c with e | ⟨a, c'⟩
  · rw [hp] at h
    exact nomatch h
  · rw [hp] at h
    exact ⟨a, c', rfl, h⟩

/-! ## Runs from anywhere -/

namespace Yields

variable {P : α → Prop} {Q : β → Prop}

theorem bind {p : Parse α} {f : α → Parse β} (h : ∀ a, Yields (f a) Q) : Yields (p >>= f) Q := by
  intro s c b c'' hrun
  obtain ⟨a, c', -, hf⟩ := run_bind_ok hrun
  exact h a s c' b c'' hf

theorem pure {a : α} (h : P a) : Yields (Pure.pure a) P := by
  intro s c a' c' hrun
  cases hrun
  exact h

theorem ite {b : Prop} [Decidable b] {p q : Parse α} (hp : Yields p P) (hq : Yields q P) :
    Yields (if b then p else q) P := by
  split
  · exact hp
  · exact hq

theorem throw (e : SyntaxError) : Yields (throw e) P :=
  fun _ _ _ _ h => nomatch h

theorem fail : Yields Parse.fail P :=
  bind fun _ => throw _

theorem collect {p : Parse (Option α)} (h : Yields p fun o => ∀ a, o = some a → P a)
    (bound : Nat) : Yields (Parse.collect p bound) fun as => ∀ a ∈ as, P a := by
  induction bound with
  | zero => exact pure (List.forall_mem_nil _)
  | succ bound ih =>
      intro s c as last hrun
      rw [Parse.collect] at hrun
      obtain ⟨o, c', hp, hrun⟩ := run_bind_ok hrun
      cases o with
      | none =>
          cases hrun
          exact List.forall_mem_nil _
      | some a =>
          obtain ⟨rest, c'', hrest, hrun⟩ := run_bind_ok hrun
          cases hrun
          exact List.forall_mem_cons.2 ⟨h s c _ c' hp a rfl, ih s c' rest last hrest⟩

theorem many {p : Parse (Option α)} (h : Yields p fun o => ∀ a, o = some a → P a) :
    Yields (Parse.many p) fun as => ∀ a ∈ as, P a :=
  bind fun bound => collect h bound

end Yields

/-! ## Runs between scanned tokens -/

namespace Reads

variable {P : α → Prop} {Q : β → Prop}

theorem bind {p : Parse α} {f : α → Parse β} (hp : Reads p P) (hf : ∀ a, P a → Reads (f a) Q) :
    Reads (p >>= f) Q := by
  intro s c b c'' hscanned hrun
  obtain ⟨a, c', ha, hb⟩ := run_bind_ok hrun
  obtain ⟨hscanned', hP⟩ := hp s c a c' hscanned ha
  exact hf a hP s c' b c'' hscanned' hb

theorem pure {a : α} (h : P a) : Reads (Pure.pure a) P := by
  intro s c a' c' hscanned hrun
  cases hrun
  exact ⟨hscanned, h⟩

theorem ite {b : Prop} [Decidable b] {p q : Parse α} (hp : Reads p P) (hq : Reads q P) :
    Reads (if b then p else q) P := by
  split
  · exact hp
  · exact hq

theorem token : Reads Parse.token Token.IsScanned := by
  intro s c t c' hscanned hrun
  cases hrun
  exact ⟨hscanned, hscanned⟩

theorem fail : Reads (Parse.fail : Parse α) P :=
  bind token fun _ _ _ _ _ _ _ h => nomatch h

theorem step : Reads Parse.step fun _ => True := by
  intro s c a c' _ hrun
  cases hrun
  exact ⟨⟨_, _, rfl⟩, trivial⟩

theorem peek : Reads Parse.peek fun _ => True :=
  bind token fun _ _ => pure trivial

theorem read : Reads (MonadReaderOf.read : Parse Setting) fun _ => True := by
  intro s c a c' hscanned hrun
  cases hrun
  exact ⟨hscanned, trivial⟩

theorem types : Reads Parse.types fun _ => True :=
  bind read fun _ _ => pure trivial

theorem isVariable (t : Token) : Reads (Parse.isVariable t) fun _ => True := by
  unfold Parse.isVariable
  split
  · exact bind read fun _ _ => pure trivial
  · exact pure trivial

theorem atMark (m : String) : Reads (Parse.atMark m) fun _ => True :=
  bind token fun _ _ => pure trivial

theorem atWord (w : String) : Reads (Parse.atWord w) fun _ => True :=
  bind token fun _ _ => pure trivial

theorem eat (m : String) : Reads (Parse.eat m) fun _ => True :=
  bind (atMark m) fun _ _ => ite (bind step fun _ _ => pure trivial) (pure trivial)

theorem eatWord (w : String) : Reads (Parse.eatWord w) fun _ => True :=
  bind (atWord w) fun _ _ => ite (bind step fun _ _ => pure trivial) (pure trivial)

theorem expect (m : String) : Reads (Parse.expect m) fun _ => True :=
  bind (eat m) fun _ _ => ite (pure trivial) fail

theorem expectWord (w : String) : Reads (Parse.expectWord w) fun _ => True :=
  bind (eatWord w) fun _ _ => ite (pure trivial) fail

theorem collect {p : Parse (Option α)} (h : Reads p fun o => ∀ a, o = some a → P a)
    (bound : Nat) : Reads (Parse.collect p bound) fun as => ∀ a ∈ as, P a := by
  induction bound with
  | zero => exact pure (List.forall_mem_nil _)
  | succ bound ih =>
      refine bind h fun o ho => ?_
      cases o with
      | none => exact pure (List.forall_mem_nil _)
      | some a => exact bind ih fun rest hrest => pure (List.forall_mem_cons.2 ⟨ho a rfl, hrest⟩)

theorem many {p : Parse (Option α)} (h : Reads p fun o => ∀ a, o = some a → P a) :
    Reads (Parse.many p) fun as => ∀ a ∈ as, P a :=
  have hbudget : Reads Parse.budget fun _ => True := bind token fun _ _ => pure trivial
  bind hbudget fun bound _ => collect h bound

/-- Items of a list are read one by one. -/
theorem commaList {p : Parse α} (h : Reads p P) (close : String) :
    Reads (Parse.commaList close p) fun as => ∀ a ∈ as, P a := by
  have hitem : Reads (do
      if ← Parse.atMark close then return none
      else
        let item ← p
        unless ← Parse.atMark close do Parse.expect ","
        return some item) fun o => ∀ a, o = some a → P a := by
    refine bind (atMark close) fun _ _ => ite (pure nofun) (bind h fun item hitem => ?_)
    refine bind (atMark close) fun _ _ => ite ?_ (bind (expect ",") fun _ _ => ?_)
    · exact pure fun _ heq => Option.some.inj heq ▸ hitem
    · exact pure fun _ heq => Option.some.inj heq ▸ hitem
  exact bind (many hitem) fun items hitems => bind (expect close) fun _ _ => pure hitems

end Reads

/-! ## Runs from a scanned token -/

/-- What the parser comes to from a token that has been scanned has the property. -/
def YieldsFrom (p : Parse α) (P : α → Prop) : Prop :=
  ∀ s c a c', c.token.IsScanned → p s c = .ok (a, c') → P a

namespace YieldsFrom

variable {P : α → Prop} {Q : β → Prop}

theorem of_yields {p : Parse α} (h : Yields p P) : YieldsFrom p P :=
  fun s c a c' _ hrun => h s c a c' hrun

theorem bind {p : Parse α} {f : α → Parse β} (hp : Reads p P) (hf : ∀ a, P a → YieldsFrom (f a) Q) :
    YieldsFrom (p >>= f) Q := by
  intro s c b c'' hscanned hrun
  obtain ⟨a, c', ha, hb⟩ := run_bind_ok hrun
  obtain ⟨hscanned', hP⟩ := hp s c a c' hscanned ha
  exact hf a hP s c' b c'' hscanned' hb

theorem ite {b : Prop} [Decidable b] {p q : Parse α} (hp : YieldsFrom p P) (hq : YieldsFrom q P) :
    YieldsFrom (if b then p else q) P := by
  split
  · exact hp
  · exact hq

end YieldsFrom

end SiteMacros.Script
