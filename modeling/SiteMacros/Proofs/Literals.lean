import SiteMacros.Expression.Render
import SiteMacros.Script.Scanner

/-!
# Literals read back

A text that is emitted stands between quotes or, with expressions in it, between backticks.
What the scanner reads between quotes is the text again, whatever is in it (`stringBody_quoted`).
Between backticks it is the text with its line breaks made into line feeds: a template may go
over lines, and a carriage return in it is the end of a line, with a line feed behind it or not
(`templateBody_templateText`). Nothing there escapes one.
-/

namespace SiteMacros

/-- A text with a line feed for each carriage return and the line feed behind it. -/
def Text.lineFeeds : List Char → List Char
  | [] => []
  | '\r' :: '\n' :: cs => '\n' :: lineFeeds cs
  | '\r' :: cs => '\n' :: lineFeeds cs
  | c :: cs => c :: lineFeeds cs

theorem Text.length_lineFeeds_le (cs : List Char) : (lineFeeds cs).length ≤ cs.length := by
  induction cs using lineFeeds.induct with
  | case1 => exact Nat.le_refl _
  | case2 cs ih =>
      rw [lineFeeds]
      simp only [List.length_cons]
      omega
  | case3 cs hnot ih =>
      rw [lineFeeds]
      · simp only [List.length_cons]
        omega
      · exact hnot
  | case4 c cs hnot hnot' ih =>
      rw [lineFeeds]
      · simp only [List.length_cons]
        omega
      · exact hnot
      · exact hnot'

/-- Only a text with carriage returns is changed. -/
theorem Text.lineFeeds_eq_self_iff (cs : List Char) : lineFeeds cs = cs ↔ '\r' ∉ cs := by
  induction cs using lineFeeds.induct with
  | case1 => simp [lineFeeds]
  | case2 cs ih =>
      rw [lineFeeds]
      simp
  | case3 cs hnot ih =>
      rw [lineFeeds]
      · simp
      · exact hnot
  | case4 c cs hnot hnot' ih =>
      rw [lineFeeds]
      · have hne : '\r' ≠ c := fun h => hnot' h.symm
        simp [ih, hne]
      · exact hnot
      · exact hnot'

namespace Script.Scanner

open SiteMacros.Text

/-! ## Between quotes -/

theorem stringBody_skip (quote : Char) (offset : Nat) (as tail : List Char) :
    ∃ stop, stringBody quote offset as.length (as ++ tail) = stringBody quote stop 0 tail := by
  induction as generalizing offset with
  | nil => exact ⟨offset, rfl⟩
  | cons a as ih =>
      obtain ⟨stop, hstop⟩ := ih (offset + a.utf8Size)
      refine ⟨stop, ?_⟩
      rw [List.length_cons, List.cons_append, stringBody]
      exact hstop

/-- An escape stands for what it denotes. -/
theorem stringBody_escape {as value tail : List Char} (offset : Nat)
    (h : escape? false (as ++ tail) = some (value, as.length)) :
    ∃ stop, stringBody '"' offset 0 ('\\' :: as ++ tail) =
      (stringBody '"' stop 0 tail).map fun (text, stop, rest) => (value ++ text, stop, rest) := by
  obtain ⟨stop, hstop⟩ := stringBody_skip '"' (offset + '\\'.utf8Size) as tail
  refine ⟨stop, ?_⟩
  rw [List.cons_append, stringBody]
  dsimp only
  rw [if_neg (by decide), if_pos rfl, h]
  dsimp only [bind, Option.bind]
  rw [hstop]
  cases stringBody '"' stop 0 tail <;> rfl

theorem stringBody_char {c : Char} (hc : c ≠ '"' ∧ c ≠ '\\' ∧ c ≠ '\n' ∧ c ≠ '\r')
    (offset : Nat) (tail : List Char) :
    stringBody '"' offset 0 (c :: tail) = (stringBody '"' (offset + c.utf8Size) 0 tail).map
      fun (text, stop, rest) => (c :: text, stop, rest) := by
  rw [stringBody]
  dsimp only
  rw [if_neg hc.1, if_neg hc.2.1, if_neg (by simp [hc.2.2])]

/-- A control character is spelled by its number. -/
theorem escape?_number {n : Nat} (hn : n < 32) (inTemplate : Bool) (tail : List Char) :
    escape? inTemplate (['u', '0', '0', hexDigit (n / 16), hexDigit (n % 16)] ++ tail) =
      some ([Char.ofNat n], 5) := by
  have hnumber : ∀ n < 32,
      baseNumber? 16 ['0', '0', hexDigit (n / 16), hexDigit (n % 16)] = some n := by
    decide +kernel
  have hhalves : isHigh n = false ∧ isLow n = false := by
    simp only [isHigh, isLow, Bool.and_eq_false_iff, decide_eq_false_iff_not]
    omega
  have hunicode : unicode? ('0' :: '0' :: hexDigit (n / 16) :: hexDigit (n % 16) :: tail) =
      some (n, 4) := by
    rw [unicode?, hnumber n hn]
    · rfl
    · decide
  show escape? inTemplate ('u' :: '0' :: '0' :: hexDigit (n / 16) :: hexDigit (n % 16) :: tail) = _
  rw [escape?, hunicode]
  simp [hhalves]

theorem stringBody_escapeChar (c : Char) (offset : Nat) (tail : List Char) :
    ∃ stop, stringBody '"' offset 0 (Text.escapeChar c ++ tail) =
      (stringBody '"' stop 0 tail).map fun (text, stop, rest) => (c :: text, stop, rest) := by
  have hletter : ∀ {e d : Char}, escape? false ([e] ++ tail) = some ([d], 1) →
      ∃ stop, stringBody '"' offset 0 (['\\', e] ++ tail) =
        (stringBody '"' stop 0 tail).map fun (text, stop, rest) => (d :: text, stop, rest) :=
    fun h => stringBody_escape offset h
  have hcontrol : ∀ {n : Nat} {e : Char}, c.toNat = n →
      escape? false ([e] ++ tail) = some ([Char.ofNat n], 1) →
      ∃ stop, stringBody '"' offset 0 (['\\', e] ++ tail) =
        (stringBody '"' stop 0 tail).map fun (text, stop, rest) => (c :: text, stop, rest) := by
    rintro n e rfl h
    rw [Char.ofNat_toNat] at h
    exact hletter h
  rw [Text.escapeChar]
  split
  · next h =>
      subst h
      exact hletter rfl
  split
  · next h =>
      subst h
      exact hletter rfl
  split
  · next h => exact hcontrol h rfl
  split
  · next h => exact hcontrol h rfl
  split
  · next h => exact hcontrol h rfl
  split
  · next h => exact hcontrol h rfl
  split
  · next h => exact hcontrol h rfl
  split
  · next h =>
      have hescape := escape?_number h false tail
      rw [Char.ofNat_toNat] at hescape
      exact stringBody_escape offset hescape
  · next hquote hslash _ _ hfeed _ hreturn _ =>
      refine ⟨_, stringBody_char ⟨hquote, hslash, ?_, ?_⟩ offset tail⟩
      · rintro rfl
        exact hfeed rfl
      · rintro rfl
        exact hreturn rfl

theorem stringBody_quoted (s : List Char) (offset : Nat) (rest : List Char) :
    ∃ stop, stringBody '"' offset 0 (s.flatMap Text.escapeChar ++ '"' :: rest) =
      some (s, stop, rest) := by
  induction s generalizing offset with
  | nil => exact ⟨_, rfl⟩
  | cons c s ih =>
      obtain ⟨stop, hstop⟩ :=
        stringBody_escapeChar c offset (s.flatMap Text.escapeChar ++ '"' :: rest)
      obtain ⟨stop', hrest⟩ := ih stop
      exact ⟨stop', by rw [List.flatMap_cons, List.append_assoc, hstop, hrest]; rfl⟩

/-! ## Between backticks -/

/-- How a character is written between backticks, before the character `next`. -/
def templateChar (c : Char) (next : Option Char) : List Char :=
  if c = '\\' ∨ c = '\x60' ∨ c = '$' ∧ next = some '\x7b' then ['\\', c] else [c]

theorem templateText_cons (c : Char) (cs : List Char) :
    Expression.templateText (c :: cs) = templateChar c cs.head? ++ Expression.templateText cs := by
  rw [Expression.templateText.eq_def, templateChar]
  split
  · next heq => cases heq
  · next heq =>
      obtain ⟨rfl, rfl⟩ := List.cons.inj heq
      rw [if_pos (.inl rfl)]
      rfl
  · next heq =>
      obtain ⟨rfl, rfl⟩ := List.cons.inj heq
      rw [if_pos (.inr (.inl rfl))]
      rfl
  · next ds heq =>
      obtain ⟨rfl, rfl⟩ := List.cons.inj heq
      have hbrace : Expression.templateText ('\x7b' :: ds) =
          '\x7b' :: Expression.templateText ds := by
        rw [Expression.templateText]
        · decide
        · decide
        · intro _ h
          exact absurd h (by decide)
      rw [if_pos (.inr (.inr ⟨rfl, rfl⟩)), hbrace]
      rfl
  · next hslash htick hhole heq =>
      obtain ⟨rfl, rfl⟩ := List.cons.inj heq
      rw [if_neg]
      · rfl
      · rintro (rfl | rfl | ⟨rfl, hnext⟩)
        · exact hslash rfl
        · exact htick rfl
        · obtain ⟨ds, hds⟩ : ∃ ds, cs = '\x7b' :: ds := by
            cases cs with
            | nil => cases hnext
            | cons d ds => exact ⟨ds, by rw [Option.some.inj hnext]⟩
          exact hhole ds rfl hds

/-- A character that no text is escaped with is in front only if it was before. -/
theorem head?_templateText {cs z : List Char} {a : Char} (ha : a ≠ '\\')
    (hcs : cs.head? ≠ some a) (hz : z.head? ≠ some a) :
    (Expression.templateText cs ++ z).head? ≠ some a := by
  cases cs with
  | nil => exact hz
  | cons c cs =>
      rw [templateText_cons, templateChar]
      split
      · exact fun h => ha (Option.some.inj h).symm
      · exact hcs

theorem templateBody_escape {c : Char} (hc : c = '\\' ∨ c = '\x60' ∨ c = '$') (offset : Nat)
    (tail : List Char) : ∃ stop, templateBody offset 0 ('\\' :: c :: tail) =
      (templateBody stop 0 tail).map (·.prepend [c]) := by
  have hescape : escape? true (c :: tail) = some ([c], 1) := by
    rcases hc with rfl | rfl | rfl <;> rfl
  refine ⟨offset + '\\'.utf8Size + c.utf8Size, ?_⟩
  rw [templateBody, if_neg (by decide), if_neg (by simp), if_pos rfl, hescape]
  dsimp only
  rw [templateBody]

theorem templateBody_char {c : Char} (hc : c ≠ '\x60' ∧ c ≠ '\\' ∧ c ≠ '\r') (offset : Nat)
    {tail : List Char} (hhole : ¬ (c = '$' ∧ tail.head? = some '\x7b')) :
    templateBody offset 0 (c :: tail) =
      (templateBody (offset + c.utf8Size) 0 tail).map (·.prepend [c]) := by
  rw [templateBody, if_neg hc.1, if_neg (by simpa using hhole), if_neg hc.2.1, if_neg hc.2.2]

/-- The end of a line is a line feed, whatever it is written as. -/
theorem templateBody_return (offset : Nat) {tail : List Char} (h : tail.head? ≠ some '\n') :
    templateBody offset 0 ('\r' :: tail) =
      (templateBody (offset + '\r'.utf8Size) 0 tail).map (·.prepend ['\n']) := by
  rw [templateBody, if_neg (by decide), if_neg (by simp), if_neg (by decide), if_pos rfl, if_neg h]

theorem templateBody_return_feed (offset : Nat) (tail : List Char) :
    templateBody offset 0 ('\r' :: '\n' :: tail) =
      (templateBody (offset + '\r'.utf8Size + '\n'.utf8Size) 0 tail).map (·.prepend ['\n']) := by
  rw [templateBody, if_neg (by decide), if_neg (by simp), if_neg (by decide), if_pos rfl,
    List.head?_cons, if_pos rfl, templateBody]

theorem prepend_prepend (t : Option TemplateChunk) (as bs : List Char) :
    (t.map (·.prepend bs)).map (·.prepend as) = t.map (·.prepend (as ++ bs)) := by
  rcases t with _ | ⟨_ | value, ends, stop, rest⟩
  · rfl
  · rfl
  · simp [TemplateChunk.prepend]

theorem templateBody_templateText (t : List Char) (offset : Nat) {z : List Char}
    (hz : z.head? ≠ some '\x7b' ∧ z.head? ≠ some '\n') :
    ∃ stop, templateBody offset 0 (Expression.templateText t ++ z) =
      (templateBody stop 0 z).map (·.prepend (lineFeeds t)) := by
  have hstep : ∀ {c : Char} {u cs : List Char}, (∀ offset, ∃ stop,
      templateBody offset 0 (Expression.templateText cs ++ z) =
        (templateBody stop 0 z).map (·.prepend u)) → ∀ {first : Option TemplateChunk} {stop : Nat},
      first = (templateBody stop 0 (Expression.templateText cs ++ z)).map (·.prepend [c]) →
      ∃ stop, first = (templateBody stop 0 z).map (·.prepend (c :: u)) := by
    rintro c u cs ih first stop rfl
    obtain ⟨stop', hstop'⟩ := ih stop
    exact ⟨stop', by rw [hstop', prepend_prepend, List.singleton_append]⟩
  induction t using lineFeeds.induct generalizing offset with
  | case1 =>
      refine ⟨offset, ?_⟩
      rw [Expression.templateText, List.nil_append, lineFeeds]
      rcases templateBody offset 0 z with _ | ⟨_ | value, ends, stop, rest⟩ <;> rfl
  | case2 cs ih =>
      rw [lineFeeds, templateText_cons, templateText_cons]
      exact hstep ih (templateBody_return_feed offset _)
  | case3 cs hnot ih =>
      have hhead : cs.head? ≠ some '\n' := by
        intro hhead
        cases cs with
        | nil => cases hhead
        | cons d ds => exact hnot ds (by rw [Option.some.inj hhead])
      rw [lineFeeds, templateText_cons]
      · exact hstep ih (templateBody_return offset (head?_templateText (by decide) hhead hz.2))
      · exact hnot
  | case4 c cs hnot hnot' ih =>
      rw [lineFeeds, templateText_cons, templateChar]
      · split
        · next hspecial =>
            obtain ⟨stop, hstop⟩ := templateBody_escape
              (hspecial.imp_right (Or.imp_right And.left)) offset
              (Expression.templateText cs ++ z)
            exact hstep ih hstop
        · next hplain =>
            rw [not_or, not_or, not_and] at hplain
            refine hstep ih (templateBody_char ⟨hplain.2.1, hplain.1, hnot'⟩ offset ?_)
            rintro ⟨hdollar, hhead⟩
            exact head?_templateText (by decide) (hplain.2.2 hdollar) hz.1 hhead
      · exact hnot
      · exact hnot'

/-- A text is read up to the backtick that ends the template. -/
theorem templateBody_ends (t : List Char) (offset : Nat) (rest : List Char) :
    ∃ stop, templateBody offset 0 (Expression.templateText t ++ '\x60' :: rest) =
      some ⟨some (lineFeeds t), true, stop, rest⟩ := by
  obtain ⟨stop, hstop⟩ := templateBody_templateText t offset
    (show ('\x60' :: rest).head? ≠ some '\x7b' ∧ ('\x60' :: rest).head? ≠ some '\n' by simp)
  refine ⟨stop + '\x60'.utf8Size, hstop.trans ?_⟩
  rw [templateBody]
  simp [TemplateChunk.prepend]

/-- A text is read up to the hole behind it. -/
theorem templateBody_hole (t : List Char) (offset : Nat) (rest : List Char) :
    ∃ stop, templateBody offset 0 (Expression.templateText t ++ '$' :: '\x7b' :: rest) =
      some ⟨some (lineFeeds t), false, stop, rest⟩ := by
  obtain ⟨stop, hstop⟩ := templateBody_templateText t offset
    (show ('$' :: '\x7b' :: rest).head? ≠ some '\x7b' ∧
      ('$' :: '\x7b' :: rest).head? ≠ some '\n' by simp)
  refine ⟨stop + '$'.utf8Size + 1, hstop.trans ?_⟩
  rw [templateBody]
  simp [TemplateChunk.prepend]

end Script.Scanner

end SiteMacros
