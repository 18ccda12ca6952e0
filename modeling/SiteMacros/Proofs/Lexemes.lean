import SiteMacros.Proofs.LocalNames
import SiteMacros.Proofs.Templates

/-!
# Texts of known lexemes

A text consists of lexemes (`Lexes`) if each scan gives the next of them, wherever the text
stands. What stands in front of such a text is one more lexeme if it is spelled so that the scan
ends where it should: a mark that no longer mark begins with, a text between quotes, or a word
that what follows it does not go on (`Bounded`). Blanks and line breaks change nothing, except
that an arrow has to stay on its line.
-/

namespace SiteMacros.Script

open Text

/-! ## Characters -/

theorem toNat_mem_of_blank {c : Char} (h : (isLineTerminator c || isSourceBlank c) = true) :
    c.toNat ∈ [9, 10, 11, 12, 13, 0x20, 0xa0, 0x1680, 0x2000, 0x2001, 0x2002, 0x2003, 0x2004, 0x2005,
      0x2006, 0x2007, 0x2008, 0x2009, 0x200a, 0x2028, 0x2029, 0x202f, 0x205f, 0x3000, 0xfeff] := by
  simp only [isLineTerminator, isSourceBlank, Bool.or_eq_true, Bool.and_eq_true, beq_iff_eq,
    decide_eq_true_eq] at h
  simp only [List.mem_cons, List.not_mem_nil, or_false]
  rcases h with ((((rfl | rfl) | h) | h) | h)
  · decide
  · decide
  all_goals omega

/-- A character that may begin a name is none of these. -/
theorem ne_of_isIdentifierStart {c d : Char} (hc : isIdentifierStart c = true)
    (hd : isIdentifierStart d = false) : c ≠ d := by
  rintro rfl
  exact absurd hc (by simp [hd])

theorem not_blank_of_isIdentifierStart {c : Char} (h : isIdentifierStart c = true) :
    isLineTerminator c = false ∧ isSourceBlank c = false := by
  have hblanks : ∀ n ∈ [9, 10, 11, 12, 13, 0x20, 0xa0, 0x1680, 0x2000, 0x2001, 0x2002, 0x2003, 0x2004,
      0x2005, 0x2006, 0x2007, 0x2008, 0x2009, 0x200a, 0x2028, 0x2029, 0x202f, 0x205f, 0x3000, 0xfeff],
      isIdentifierStart (Char.ofNat n) = false := by
    decide +kernel
  rw [← Bool.or_eq_false_iff, ← Bool.not_eq_true]
  intro hblank
  have hstart := hblanks _ (toNat_mem_of_blank hblank)
  rw [Char.ofNat_toNat, h] at hstart
  exact absurd hstart (by decide)

theorem isDigit_of_isIdentifierStart {c : Char} (h : isIdentifierStart c = true) :
    c.isDigit = false := by
  have hdigits : ∀ n < 10, isIdentifierStart (Char.ofNat (48 + n)) = false := by
    decide +kernel
  by_contra hdigit
  have hrange : 48 ≤ c.toNat ∧ c.toNat ≤ 57 := by
    simpa [Char.isDigit, UInt32.le_iff_toNat_le] using hdigit
  have hstart := hdigits (c.toNat - 48) (by omega)
  rw [show 48 + (c.toNat - 48) = c.toNat by omega, Char.ofNat_toNat, h] at hstart
  exact absurd hstart (by decide)

/-! ## Scans -/

namespace Scanner

/-- That a line has ended before changes nothing else. -/
theorem skipBlanks_newLine (cs : List Char) (mode : BlankMode) (offset : Nat) (newLine : Bool) :
    skipBlanks mode offset newLine cs =
      (skipBlanks mode offset false cs).map fun (start, ended, here) =>
        (start, newLine || ended, here) := by
  induction cs generalizing mode offset newLine with
  | nil =>
      rw [skipBlanks, skipBlanks]
      split <;> simp
  | cons c cs ih =>
      rw [skipBlanks.eq_def, skipBlanks.eq_def mode offset false]
      have hends (mode : BlankMode) (offset : Nat) (ends : Bool) :
          skipBlanks mode offset (newLine || ends) cs =
            (skipBlanks mode offset (false || ends) cs).map fun (start, ended, here) =>
              (start, newLine || ended, here) := by
        rw [ih, ih mode offset (false || ends), Option.map_map]
        congr 1
        funext ⟨start, ended, here⟩
        simp [Bool.or_assoc]
      cases mode with
      | lineComment => exact hends _ _ _
      | opening => exact ih _ _ _
      | closing => exact ih _ _ _
      | blockComment => exact hends _ _ _
      | code =>
          dsimp only
          split
          · have h := hends .code (offset + c.utf8Size) true
            rwa [Bool.or_true, Bool.or_true] at h
          split
          · exact ih _ _ _
          split
          · exact ih _ _ _
          split
          · exact ih _ _ _
          · simp

theorem length_skipBlanks_le {cs here : List Char} {mode : BlankMode} {offset start : Nat}
    {newLine ended : Bool} (h : skipBlanks mode offset newLine cs = some (start, ended, here)) :
    here.length ≤ cs.length := by
  induction cs generalizing mode offset newLine with
  | nil =>
      rw [skipBlanks] at h
      split at h
      · cases h
        exact Nat.le_refl _
      · exact nomatch h
  | cons c cs ih =>
      rw [skipBlanks.eq_def] at h
      cases mode with
      | code =>
          dsimp only at h
          split at h
          · exact Nat.le_succ_of_le (ih h)
          split at h
          · exact Nat.le_succ_of_le (ih h)
          split at h
          · exact Nat.le_succ_of_le (ih h)
          split at h
          · exact Nat.le_succ_of_le (ih h)
          · cases h
            exact Nat.le_refl _
      | _ => exact Nat.le_succ_of_le (ih h)

theorem length_here_le (offset : Nat) (cs : List Char) :
    (scan offset cs).here.length ≤ cs.length := by
  rw [scan]
  split
  · exact Nat.le_refl _
  · next h => exact length_skipBlanks_le h

end Scanner

/-- The token is this lexeme, and that text is behind it. -/
structure Token.Is (t : Token) (l : Lexeme) (rest : List Char) : Prop where
  lexeme : t.lexeme = l
  after : t.rest = rest
  shorter : rest.length < t.here.length
  /-- An arrow is on the line of what precedes it. -/
  onLine : l = .mark "=>" → t.onNewLine = false

/-- The text consists of these lexemes, wherever it stands. -/
inductive Lexes : List Lexeme → List Char → Prop
  | nil {cs : List Char} (h : ∀ offset, (Scanner.scan offset cs).lexeme = .endOfText) : Lexes [] cs
  | cons {l : Lexeme} {ls : List Lexeme} {cs rest : List Char}
      (h : ∀ offset, (Scanner.scan offset cs).Is l rest) (hrest : Lexes ls rest) :
      Lexes (l :: ls) cs

/-- The word before the text ends there. -/
def Bounded (cs : List Char) : Prop :=
  ∀ c ∈ cs.head?, isIdentifierPart c = false ∧ c ≠ '\\'

namespace Lexes

variable {l : Lexeme} {ls : List Lexeme} {cs : List Char}

theorem empty : Lexes [] [] :=
  .nil fun _ => rfl

theorem length_le (h : Lexes ls cs) : ls.length ≤ cs.length := by
  induction h with
  | nil _ => exact Nat.zero_le _
  | @cons l ls cs rest h _ ih =>
      have hshorter := (h 0).shorter
      have hhere := Scanner.length_here_le 0 cs
      rw [List.length_cons]
      omega

/-! ## Blanks -/

theorem scan_blank {b : Char} (hb : isLineTerminator b = false ∧ isSourceBlank b = true)
    (offset : Nat) (cs : List Char) :
    Scanner.skipBlanks .code offset false (b :: cs) =
      Scanner.skipBlanks .code (offset + b.utf8Size) false cs := by
  rw [Scanner.skipBlanks.eq_def]
  simp [hb]

/-- What is true of the token of a text is true of it behind what is skipped. -/
theorem of_skipped {b : Char} (newLine : Bool) (next : Nat → Nat)
    (hb : ∀ offset, Scanner.skipBlanks .code offset false (b :: cs) =
      Scanner.skipBlanks .code (next offset) newLine cs)
    (harrow : newLine = true → ls.head? ≠ some (.mark "=>")) (h : Lexes ls cs) :
    Lexes ls (b :: cs) := by
  have hscan (offset : Nat) :
      (Scanner.scan offset (b :: cs)).lexeme = (Scanner.scan (next offset) cs).lexeme ∧
      (Scanner.scan offset (b :: cs)).rest = (Scanner.scan (next offset) cs).rest ∧
      (Scanner.scan (next offset) cs).here.length ≤ (Scanner.scan offset (b :: cs)).here.length ∧
      (newLine = false → (Scanner.scan (next offset) cs).onNewLine = false →
        (Scanner.scan offset (b :: cs)).onNewLine = false) := by
    rw [Scanner.scan, hb, Scanner.skipBlanks_newLine, Scanner.scan]
    rcases Scanner.skipBlanks .code (next offset) false cs with - | ⟨start, ended, here⟩
    · exact ⟨rfl, rfl, Nat.le_succ _, fun _ _ => rfl⟩
    · refine ⟨rfl, rfl, Nat.le_refl _, fun hline hended => ?_⟩
      rw [hline]
      exact hended
  cases h with
  | nil h => exact .nil fun offset => (hscan offset).1.trans (h _)
  | cons h hrest =>
      refine .cons (fun offset => ?_) hrest
      obtain ⟨hlexeme, hrest', hhere, hline⟩ := hscan offset
      have hnext := h (next offset)
      refine ⟨hlexeme.trans hnext.lexeme, hrest'.trans hnext.after,
        Nat.lt_of_lt_of_le hnext.shorter hhere, fun hl => hline ?_ (hnext.onLine hl)⟩
      subst hl
      simpa using mt harrow (by simp)

theorem blank (h : Lexes ls cs) : Lexes ls (' ' :: cs) :=
  of_skipped false (· + 1) (fun offset => scan_blank (by decide) offset cs) nofun h

theorem blanks (h : Lexes ls cs) (depth : Nat) :
    Lexes ls ((Expression.indent depth).toList ++ cs) := by
  induction depth with
  | zero => exact h
  | succ depth ih =>
      rw [Expression.indent, Text.replicate, List.replicate_succ, String.join_cons,
        String.toList_append]
      exact ih.blank.blank

theorem lineFeed (harrow : ls.head? ≠ some (.mark "=>")) (h : Lexes ls cs) :
    Lexes ls ('\n' :: cs) :=
  of_skipped true (· + 1) (fun _ => rfl) (fun _ => harrow) h

/-! ## Lexemes -/

/-- Where no blank is in front, a text begins with the lexeme that is scanned there. -/
theorem of_lexeme {c : Char} {rest : List Char}
    (hc : isLineTerminator c = false ∧ isSourceBlank c = false) (hslash : c ≠ '/')
    (hl : ∀ offset, ∃ stop, Scanner.lexeme offset (c :: cs) = (l, stop, rest))
    (hlength : rest.length ≤ cs.length) (hrest : Lexes ls rest) : Lexes (l :: ls) (c :: cs) := by
  refine .cons (fun offset => ?_) hrest
  obtain ⟨stop, hstop⟩ := hl offset
  have hskipped : Scanner.skipBlanks .code offset false (c :: cs) =
      some (offset, false, c :: cs) := by
    rw [Scanner.skipBlanks.eq_def]
    simp [hc, hslash]
  rw [scan_of_lexeme hskipped hstop]
  exact ⟨rfl, rfl, Nat.lt_succ_of_le hlength, fun _ => rfl⟩

/-- The marks that begin no longer one. -/
theorem mark {c : Char} (hc : c ∈ ['(', ')', '[', ']', '\x7b', '\x7d', ',', ';', ':'])
    (h : Lexes ls cs) : Lexes (.mark c.toString :: ls) (c :: cs) := by
  simp only [List.mem_cons, List.not_mem_nil, or_false] at hc
  rcases hc with rfl | rfl | rfl | rfl | rfl | rfl | rfl | rfl | rfl
  all_goals exact of_lexeme (by decide) (by decide) (fun _ => ⟨_, rfl⟩) (Nat.le_refl _) h

theorem arrow (h : Lexes ls cs) : Lexes (.mark "=>" :: ls) ('=' :: '>' :: cs) :=
  of_lexeme (by decide) (by decide) (fun _ => ⟨_, rfl⟩) (Nat.le_succ _) h

/-- A question mark before a blank. -/
theorem question (h : Lexes ls cs) : Lexes (.mark "?" :: ls) ('?' :: ' ' :: cs) :=
  of_lexeme (by decide) (by decide) (fun _ => ⟨_, rfl⟩) (Nat.le_refl _) h.blank

theorem quoted (text : String) (h : Lexes ls cs) :
    Lexes (.string text :: ls) ((Text.quoted text).toList ++ cs) := by
  rw [toList_quoted_append]
  refine of_lexeme (by decide) (by decide) (fun offset => lexeme_quoted text cs offset) ?_ h
  rw [List.length_append, List.length_cons]
  omega

theorem nameBody_char {first : Bool} {c : Char} (hescape : c ≠ '\\')
    (hc : (if first then isIdentifierStart c else isIdentifierPart c) = true) (offset : Nat)
    (cs : List Char) : Scanner.nameBody first offset 0 (c :: cs) =
      (Scanner.nameBody false (offset + c.utf8Size) 0 cs).map fun (text, escaped, stop, rest) =>
        (c :: text, escaped, stop, rest) := by
  rw [Scanner.nameBody.eq_def]
  dsimp only
  rw [if_neg hescape, if_pos hc]

theorem nameBody_append {ds : List Char} (hds : ∀ d ∈ ds, isIdentifierPart d = true)
    (hcs : Bounded cs) (offset : Nat) :
    ∃ stop, Scanner.nameBody false offset 0 (ds ++ cs) = some (ds, false, stop, cs) := by
  induction ds generalizing offset with
  | nil =>
      cases cs with
      | nil => exact ⟨offset, rfl⟩
      | cons c cs =>
          obtain ⟨hpart, hescape⟩ := hcs c rfl
          refine ⟨offset, ?_⟩
          rw [List.nil_append, Scanner.nameBody.eq_def]
          simp [hpart, hescape]
  | cons d ds ih =>
      obtain ⟨hd, hds⟩ := List.forall_mem_cons.1 hds
      obtain ⟨stop, hstop⟩ := ih hds (offset + d.utf8Size)
      have hescape : d ≠ '\\' := by
        rintro rfl
        exact absurd hd (by decide)
      refine ⟨stop, ?_⟩
      rw [List.cons_append, nameBody_char hescape ((if_neg Bool.false_ne_true).trans hd), hstop]
      rfl

/-- A word is read up to where it ends. -/
theorem name {w : String} (hw : IsWord w) (hcs : Bounded cs) (h : Lexes ls cs) :
    Lexes (.name w false :: ls) (w.toList ++ cs) := by
  obtain ⟨c, ds, hchars, hc, hds⟩ := hw.exists_chars
  have hne : ∀ d, isIdentifierStart d = false → c ≠ d := fun d => ne_of_isIdentifierStart hc
  have hquote : (decide (c = '"') || decide (c = '\'')) = false := by
    simp [hne '"' (by decide), hne '\'' (by decide)]
  rw [hchars]
  refine of_lexeme (not_blank_of_isIdentifierStart hc) (hne _ (by decide)) (fun offset => ?_)
    (by simp) h
  obtain ⟨stop, hstop⟩ := nameBody_append hds hcs (offset + c.utf8Size)
  refine ⟨stop, ?_⟩
  change Scanner.lexeme offset (c :: (ds ++ cs)) = _
  generalize ds ++ cs = tail at hstop
  have hnumber : (c.isDigit || decide (c = '.') && tail.head?.any Char.isDigit) = false := by
    simp [isDigit_of_isIdentifierStart hc, hne '.' (by decide)]
  rw [Scanner.lexeme]
  dsimp only
  rw [hquote, if_neg Bool.false_ne_true, if_neg (hne _ (by decide)), if_neg (hne _ (by decide)),
    hnumber, if_neg Bool.false_ne_true, hc, Bool.true_or, if_pos rfl,
    nameBody_char (hne _ (by decide)) ((if_pos rfl).trans hc), hstop]
  dsimp only [Option.map_some]
  rw [← hchars, String.ofList_toList]

/-- A dot before a word. -/
theorem dot {w : String} (hw : IsWord w) (h : Lexes ls (w.toList ++ cs)) :
    Lexes (.mark "." :: ls) ('.' :: (w.toList ++ cs)) := by
  obtain ⟨c, ds, hchars, hc, -⟩ := hw.exists_chars
  rw [hchars] at h ⊢
  have hdot : c ≠ '.' := ne_of_isIdentifierStart hc (by decide)
  refine of_lexeme (by decide) (by decide) (fun offset => ⟨offset + 1, ?_⟩) (Nat.le_refl _) h
  have hmark : Scanner.mark? ('.' :: (c :: ds ++ cs)) = some "." := by
    have hlong : Scanner.longMarks.find? (fun m => m.isPrefixOf ('.' :: (c :: ds ++ cs))) =
        none := by
      simp [Scanner.longMarks, List.isPrefixOf, hdot.symm]
    rw [Scanner.mark?, if_neg (by simp), hlong]
    rfl
  rw [Scanner.lexeme]
  simp only [List.cons_append, List.head?_cons, Option.any_some, isDigit_of_isIdentifierStart hc]
  rw [← List.cons_append, hmark]
  rfl

end Lexes

end SiteMacros.Script
