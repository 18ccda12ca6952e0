import Mathlib.Data.List.Basic
import Mathlib.Data.List.Induction
import SiteMacros.Glob.Search
import SiteMacros.Proofs.Leads
import SiteMacros.Proofs.Perform

/-!
# What patterns are made of

A pattern is cut at its slashes, and each component is compiled for itself. So a text that
is stepped into has no slash in it (`slash_not_mem_of_literal`). In front of the pattern
that a module writes stands the directory that it is seen from, escaped; escaping goes
character by character and leaves slashes alone, so that the pieces of the directory's path
come back as steps, each of which matches that piece only (`stepsOf_escaped`).
-/

namespace SiteMacros

theorem Text.dropEndWhile_concat {α : Type} (p : α → Bool) (xs : List α) (x : α) :
    dropEndWhile p (xs ++ [x]) = if p x then dropEndWhile p xs else xs ++ [x] := by
  rw [dropEndWhile, List.reverse_append, List.reverse_singleton, List.singleton_append,
    List.dropWhile_cons]
  split
  · rfl
  · rw [List.reverse_cons, List.reverse_reverse]

theorem Text.dropEndWhile_cons {α : Type} (p : α → Bool) (x : α) (xs : List α) :
    dropEndWhile p (x :: xs) =
      if dropEndWhile p xs = [] then (if p x then [] else [x]) else x :: dropEndWhile p xs := by
  induction xs using List.reverseRecOn with
  | nil => exact dropEndWhile_concat p [] x
  | append_singleton xs y ih =>
      rw [← List.cons_append, dropEndWhile_concat, dropEndWhile_concat]
      split
      · exact ih
      · rw [if_neg (by simp)]
        rfl

namespace Glob

theorem class?_ne_char {cs : List Char} {t : Token} {length : Nat}
    (h : class? cs = some (t, length)) (c : Char) : t ≠ .char c := by
  rintro rfl
  rw [class?.eq_def] at h
  split at h
  all_goals
    first
      | cases h
      | obtain ⟨body, -, hbody⟩ := Option.map_eq_some_iff.1 h
        cases hbody

/-- The characters that tokens stand for are characters of the pattern. -/
theorem mem_of_mem_tokens {position skip : Nat} {opens : Bool} {cs : List Char} {ts : List Token}
    (h : tokens position opens skip cs = .ok ts) {a : Char} (ha : .char a ∈ ts) : a ∈ cs := by
  induction cs generalizing position skip opens ts with
  | nil =>
      cases h
      exact absurd ha List.not_mem_nil
  | cons c cs ih =>
      have hnext : ∀ {t : Token} {skip : Nat} {opens : Bool}, (t = .char a → a = c) →
          (tokens (position + 1) opens skip cs).map (t :: ·) = .ok ts → a ∈ c :: cs := by
        intro t skip opens ht hts
        cases hrest : tokens (position + 1) opens skip cs with
        | error e =>
            rw [hrest] at hts
            cases hts
        | ok rest =>
            rw [hrest] at hts
            cases hts
            rcases List.mem_cons.1 ha with hchar | hrest'
            · exact ht hchar.symm ▸ List.mem_cons_self
            · exact List.mem_cons_of_mem c (ih hrest hrest')
      rw [tokens.eq_def] at h
      dsimp only at h
      split at h
      · exact List.mem_cons_of_mem c (ih h ha)
      · split at h
        · exact hnext (fun heq => by cases heq) h
        · split at h
          · cases h
          · split at h
            · cases h
            · split at h
              · exact hnext (fun heq => by cases heq) h
              · cases h
          · exact hnext (fun heq => by cases heq) h
        · split at h
          · next t length hclass => exact hnext (fun heq => absurd heq (class?_ne_char hclass a)) h
          · cases h
        · exact hnext (fun heq => (Token.char.inj heq).symm) h
        · exact hnext (fun heq => (Token.char.inj heq).symm) h

theorem plain?_eq_some {ts : List Token} {cs : List Char} (h : plain? ts = some cs) :
    ts = cs.map .char := by
  induction ts generalizing cs with
  | nil =>
      cases h
      rfl
  | cons t ts ih =>
      cases t with
      | char c =>
          obtain ⟨cs, hcs, rfl⟩ := Option.map_eq_some_iff.1 h
          rw [ih hcs, List.map_cons]
      | one => cases h
      | many => cases h
      | within items => cases h
      | except items => cases h
      | deep => cases h

/-- The pieces of a text between slashes, but for an empty one at the end. -/
def cut (s : String) : List String :=
  let components := Text.split '/' s
  if components.getLast? = some "" then components.dropLast else components

/-- The components of a pattern. -/
def componentsOf (pattern : String) : List String :=
  cut ((Text.dropStart? "/" pattern).getD pattern)

theorem stepsOf_eq (pattern : String) : stepsOf pattern = (do
    let _ ← compile pattern
    let ss ← (componentsOf pattern).mapM fun c => (compile c).map Step.ofTokens
    return collapse ss) := rfl

theorem stepsOf_eq_ok {pattern : String} {steps : List Step} (h : stepsOf pattern = .ok steps) :
    ∃ ss, (componentsOf pattern).map (fun c => (compile c).map Step.ofTokens) = ss.map .ok ∧
      steps = collapse ss := by
  rw [stepsOf_eq] at h
  obtain ⟨_, -, h⟩ := Expansion.exists_of_bind_eq_ok h
  obtain ⟨ss, hss, h⟩ := Expansion.exists_of_bind_eq_ok h
  exact ⟨ss, Expansion.mapM_eq_ok_iff.1 hss, (Except.ok.inj h).symm⟩

theorem collapse_subset (steps : List Step) : collapse steps ⊆ steps := by
  induction steps with
  | nil => exact List.Subset.refl _
  | cons s rest ih =>
      rw [collapse.eq_def]
      split
      · next heq =>
          obtain ⟨-, rfl⟩ := List.cons.inj heq
          exact List.subset_cons_of_subset _ ih
      · next heq =>
          obtain ⟨rfl, rfl⟩ := List.cons.inj heq
          exact List.cons_subset_cons _ ih
      · next heq => cases heq

theorem collapse_cons {s : Step} (h : s ≠ .deep) (rest : List Step) :
    collapse (s :: rest) = s :: collapse rest := by
  rw [collapse.eq_def]
  split
  · next heq => exact absurd (List.cons.inj heq).1 h
  · next heq =>
      obtain ⟨rfl, rfl⟩ := List.cons.inj heq
      rfl
  · next heq => cases heq

theorem slash_not_mem_componentsOf {pattern c : String} (h : c ∈ componentsOf pattern) :
    '/' ∉ c.toList := by
  have hsplit : ∀ s, c ∈ Text.split '/' s → '/' ∉ c.toList := by
    intro s hs
    obtain ⟨cs, hcs, rfl⟩ := List.mem_map.1 hs
    rw [String.toList_ofList]
    exact Text.sep_not_mem_pieces hcs
  rw [componentsOf, cut] at h
  split at h
  · exact hsplit _ (List.dropLast_subset _ h)
  · exact hsplit _ h

/-- A text that is stepped into is a piece of a path. -/
theorem slash_not_mem_of_literal {pattern : String} {steps : List Step}
    (h : stepsOf pattern = .ok steps) {name : String} (hname : .literal name ∈ steps) :
    '/' ∉ name.toList := by
  obtain ⟨ss, hss, rfl⟩ := stepsOf_eq_ok h
  have hmem : Except.ok (Step.literal name) ∈ ss.map (Except.ok (ε := GlobError)) :=
    List.mem_map_of_mem (collapse_subset ss hname)
  rw [← hss] at hmem
  obtain ⟨c, hc, hstep⟩ := List.mem_map.1 hmem
  cases hts : compile c with
  | error e =>
      rw [hts] at hstep
      cases hstep
  | ok ts =>
      rw [hts] at hstep
      have hof : Step.ofTokens ts = .literal name := Except.ok.inj hstep
      rw [Step.ofTokens] at hof
      split at hof
      · cases hof
      · split at hof
        · next cs hcs =>
            cases hof
            rw [String.toList_ofList]
            intro hslash
            refine slash_not_mem_componentsOf hc (mem_of_mem_tokens hts ?_)
            rw [plain?_eq_some hcs]
            exact List.mem_map_of_mem hslash
        · cases hof

/-! ## Escaped texts -/

/-- The token that an escaped character comes back as. -/
def escapeToken (c : Char) : Token :=
  if c = '?' || c = '*' || c = '[' || c = ']' then .within [.single c] else .char c

theorem tokens_escape (position : Nat) (opens : Bool) (cs : List Char) :
    tokens position opens 0 (cs.flatMap escapeChar) = .ok (cs.map escapeToken) := by
  induction cs generalizing position opens with
  | nil => rfl
  | cons c cs ih =>
      rw [List.flatMap_cons, List.map_cons, escapeChar, escapeToken]
      by_cases hspecial : c = '?' ∨ c = '*' ∨ c = '[' ∨ c = ']'
      · have hcond : (c = '?' || c = '*' || c = '[' || c = ']') = true := by
          simpa [or_assoc] using hspecial
        rw [if_pos hcond, if_pos hcond]
        rcases hspecial with rfl | rfl | rfl | rfl <;>
          simp [tokens, class?, classBody?, classItems, ih, Except.map]
      · have hcond : ¬ (c = '?' || c = '*' || c = '[' || c = ']') = true := by
          simpa [or_assoc] using hspecial
        rw [if_neg hcond, if_neg hcond, List.singleton_append, tokens.eq_def]
        simp only [not_or] at hspecial
        dsimp only
        split
        · exact absurd rfl hspecial.1
        · exact absurd rfl hspecial.2.1
        · exact absurd rfl hspecial.2.2.1
        · rw [ih]
          rfl
        · rw [ih]
          rfl

theorem slash_mem_escapeChar {c : Char} : '/' ∈ escapeChar c ↔ c = '/' := by
  rw [escapeChar]
  split
  · next hspecial =>
      refine iff_of_false ?_ ?_
      · intro hmem
        simp only [List.mem_cons, List.not_mem_nil, or_false] at hmem
        rcases hmem with h | rfl | h
        · revert h
          decide
        · revert hspecial
          decide
        · revert h
          decide
      · rintro rfl
        revert hspecial
        decide
  · rw [List.mem_singleton, eq_comm]

end Glob

theorem Text.pieces_append_of_not_mem {sep : Char} {xs ys p : List Char} {ps : List (List Char)}
    (h : sep ∉ xs) (hys : pieces sep ys = p :: ps) : pieces sep (xs ++ ys) = (xs ++ p) :: ps := by
  induction xs with
  | nil => exact hys
  | cons x xs ih =>
      rw [List.mem_cons, not_or] at h
      rw [List.cons_append, pieces, if_neg (Ne.symm h.1), ih h.2]
      rfl

namespace Glob

/-- Escaping leaves the places of slashes alone. -/
theorem pieces_escape (cs : List Char) :
    Text.pieces '/' (cs.flatMap escapeChar) = (Text.pieces '/' cs).map (·.flatMap escapeChar) := by
  induction cs with
  | nil => rfl
  | cons c cs ih =>
      rw [List.flatMap_cons]
      by_cases hslash : c = '/'
      · subst hslash
        show Text.pieces '/' ('/' :: cs.flatMap escapeChar) = _
        rw [Text.pieces, if_pos rfl, Text.pieces, if_pos rfl, ih]
        rfl
      · obtain ⟨p, ps, hps⟩ := List.exists_cons_of_ne_nil (Text.pieces_ne_nil '/' cs)
        rw [hps, List.map_cons] at ih
        rw [Text.pieces_append_of_not_mem (fun hmem => hslash (slash_mem_escapeChar.1 hmem)) ih,
          Text.pieces, if_neg hslash, hps]
        rfl

theorem dropEndWhile_escape (cs : List Char) :
    Text.dropEndWhile (· == '/') (cs.flatMap escapeChar) =
      (Text.dropEndWhile (· == '/') cs).flatMap escapeChar := by
  induction cs using List.reverseRecOn with
  | nil => rfl
  | append_singleton cs c ih =>
      rw [List.flatMap_append, List.flatMap_singleton, Text.dropEndWhile_concat]
      by_cases hslash : c = '/'
      · subst hslash
        rw [show escapeChar '/' = ['/'] from rfl, Text.dropEndWhile_concat, ih]
        rfl
      · obtain ⟨before, last, hlast⟩ : ∃ before last, escapeChar c = before ++ [last] := by
          rw [escapeChar]
          split
          · exact ⟨['[', c], ']', rfl⟩
          · exact ⟨[], c, rfl⟩
        have hne : (last == '/') = false := by
          rw [beq_eq_false_iff_ne]
          rintro rfl
          refine hslash (slash_mem_escapeChar.1 ?_)
          rw [hlast]
          exact List.mem_append_right before (List.mem_singleton_self _)
        rw [hlast, ← List.append_assoc, Text.dropEndWhile_concat, hne,
          if_neg Bool.false_ne_true, beq_eq_false_iff_ne.2 hslash, if_neg Bool.false_ne_true,
          List.flatMap_append, List.flatMap_singleton, hlast, List.append_assoc]

theorem cut_append (before after : List Char) :
    cut (String.ofList (before ++ '/' :: after)) =
      (Text.pieces '/' before).map String.ofList ++ cut (String.ofList after) := by
  have hne : (Text.pieces '/' after).map String.ofList ≠ [] :=
    fun hnil => Text.pieces_ne_nil '/' after (List.map_eq_nil_iff.1 hnil)
  rw [cut, cut, Text.split, Text.split, String.toList_ofList, String.toList_ofList,
    Text.pieces_append_sep, List.map_append, List.getLast?_append_of_ne_nil _ hne]
  split
  · rw [List.dropLast_append_of_ne_nil hne]
  · rfl

/-- The step that an escaped piece of a path comes back as. -/
def escapedStep (q : List Char) : Step :=
  .ofTokens (q.map escapeToken)

theorem map_escapeToken_ne_deep (q : List Char) : q.map escapeToken ≠ [.deep] := by
  intro heq
  cases q with
  | nil => cases heq
  | cons c q =>
      have hhead := (List.cons.inj heq).1
      rw [escapeToken] at hhead
      split at hhead <;> cases hhead

theorem escapedStep_ne_deep (q : List Char) : escapedStep q ≠ .deep := by
  rw [escapedStep, Step.ofTokens, if_neg (map_escapeToken_ne_deep q)]
  split <;> simp

/-- A pattern that starts with escaped pieces starts with their steps. -/
theorem stepsOf_escaped {pattern : String} {cs : List Char} {rest : List String}
    (hcomponents : componentsOf pattern =
      (Text.pieces '/' (cs.flatMap escapeChar)).map String.ofList ++ rest)
    {steps : List Step} (h : stepsOf pattern = .ok steps) :
    ∃ ss, rest.map (fun c => (compile c).map Step.ofTokens) = ss.map .ok ∧
      steps = (Text.pieces '/' cs).map escapedStep ++ collapse ss := by
  obtain ⟨ss, hss, rfl⟩ := stepsOf_eq_ok h
  rw [hcomponents, pieces_escape] at hss
  generalize Text.pieces '/' cs = qs at hss ⊢
  clear hcomponents h
  induction qs generalizing ss with
  | nil => exact ⟨ss, hss, rfl⟩
  | cons q qs ih =>
      have hq : (compile (String.ofList (q.flatMap escapeChar))).map Step.ofTokens =
          .ok (escapedStep q) := by
        rw [compile, String.toList_ofList, tokens_escape]
        rfl
      rw [List.map_cons, List.map_cons, List.cons_append, List.map_cons, hq] at hss
      cases ss with
      | nil => cases hss
      | cons s ss =>
          rw [List.map_cons] at hss
          obtain ⟨hs, htail⟩ := List.cons.inj hss
          cases hs
          obtain ⟨rs, hrs, hsteps⟩ := ih ss htail
          refine ⟨rs, hrs, ?_⟩
          rw [collapse_cons (escapedStep_ne_deep q), hsteps]
          rfl

end Glob

end SiteMacros
