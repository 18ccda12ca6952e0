import SiteMacros.Proofs.LiteralPatterns
import SiteMacros.Proofs.Resources

/-!
# The translations of a page

A page's directory of translations is searched with two patterns, one for each ending of a
YAML file. A text may fail to be a pattern, and what is wrong with it may depend on where it
stands: `**` is allowed only as a whole component, and a bracket opens a class that has to be
closed. None of this can come from the directory, whatever it is called, because its path is
escaped (`exists_findFiles`). So the search of a page's translations never fails
(`exists_ofPage`).
-/

namespace SiteMacros

namespace Glob

/-- A text that is escaped does not spoil the pattern that it is written in front of. -/
theorem exists_tokens_escape {g : List Char}
    (h : ∀ position opens, ∃ ts, tokens position opens 0 g = .ok ts) (cs : List Char) :
    ∀ position opens, ∃ ts, tokens position opens 0 (cs.flatMap escapeChar ++ g) = .ok ts := by
  induction cs with
  | nil => exact h
  | cons c cs ih =>
      intro position opens
      rw [List.flatMap_cons, List.append_assoc]
      by_cases hspecial : (c = '?' || c = '*' || c = '[' || c = ']') = true
      · have hescape : escapeChar c = ['[', c, ']'] := by rw [escapeChar, if_pos hspecial]
        have hbang : c ≠ '!' := by
          rintro rfl
          revert hspecial
          decide
        obtain ⟨ts, hts⟩ := ih (position + 3) false
        exact ⟨.within [.single c] :: ts, by rw [tokens_class hescape hbang, hts]; rfl⟩
      · have hescape : escapeChar c = [c] := by rw [escapeChar, if_neg hspecial]
        have hplain : isPlain c = true := by
          simp only [Bool.or_eq_true, decide_eq_true_eq, not_or] at hspecial
          simp [isPlain, hspecial]
        obtain ⟨ts, hts⟩ := ih (position + 1) (c == '/')
        rw [hescape, List.singleton_append]
        exact ⟨.char c :: ts, by rw [tokens_char hplain, hts]; rfl⟩

/-- A pattern is one if it is as a whole and each of its components is. -/
theorem exists_stepsOf {pattern : String} (hwhole : ∃ ts, compile pattern = .ok ts)
    (hcomponents : ∀ c ∈ componentsOf pattern, ∃ ts, compile c = .ok ts) :
    ∃ steps, stepsOf pattern = .ok steps := by
  obtain ⟨ts, hts⟩ := hwhole
  have hsteps : ∀ cs : List String, (∀ c ∈ cs, ∃ ts, compile c = .ok ts) →
      ∃ ss : List Step, cs.map (fun c => (compile c).map Step.ofTokens) = ss.map .ok := by
    intro cs hcs
    induction cs with
    | nil => exact ⟨[], rfl⟩
    | cons c cs ih =>
        obtain ⟨⟨us, hus⟩, hcs⟩ := List.forall_mem_cons.1 hcs
        obtain ⟨ss, hss⟩ := ih hcs
        exact ⟨.ofTokens us :: ss, by rw [List.map_cons, hus, hss]; rfl⟩
  obtain ⟨ss, hss⟩ := hsteps (componentsOf pattern) hcomponents
  exact ⟨collapse ss, by rw [stepsOf_eq, hts, Expansion.mapM_eq_ok_iff.2 hss]; rfl⟩

end Glob

namespace ImportPattern

/-- The components of a pattern are escaped, or they are those of its rest. -/
theorem mem_componentsOf_globText {p : ImportPattern} (hrest : p.rest ≠ "") {c : String}
    (hc : c ∈ Glob.componentsOf p.globText) :
    (∃ q : List Char, c = String.ofList (q.flatMap Glob.escapeChar)) ∨ c ∈ Glob.cut p.rest := by
  have htext := toList_globText hrest
  have hpieces : ∀ cs : List Char, c ∈ Glob.cut (String.ofList
      (cs.flatMap Glob.escapeChar ++ '/' :: p.rest.toList)) →
      (∃ q : List Char, c = String.ofList (q.flatMap Glob.escapeChar)) ∨ c ∈ Glob.cut p.rest := by
    intro cs hmem
    rw [Glob.cut_append, Glob.pieces_escape, String.ofList_toList, List.map_map,
      List.mem_append] at hmem
    refine hmem.imp_left fun hmem => ?_
    obtain ⟨q, -, rfl⟩ := List.mem_map.1 hmem
    exact ⟨q, rfl⟩
  cases hbase : Text.dropEndWhile (· == '/') p.base.text.toList with
  | nil =>
      rw [hbase] at htext
      rw [(componentsOf_absolute htext).2, String.ofList_toList] at hc
      exact .inr hc
  | cons d ds =>
      rw [hbase] at htext
      by_cases hslash : d = '/'
      · subst hslash
        have habsolute : p.globText.toList =
            '/' :: (ds.flatMap Glob.escapeChar ++ '/' :: p.rest.toList) := htext
        rw [(componentsOf_absolute habsolute).2] at hc
        exact hpieces ds hc
      · obtain ⟨b, bs, hb⟩ := List.exists_cons_of_ne_nil (Glob.escapeChar_ne_nil d)
        have hfirst : p.globText.toList =
            b :: (bs ++ ds.flatMap Glob.escapeChar ++ '/' :: p.rest.toList) := by
          rw [htext, List.flatMap_cons, hb]
          simp
        have hb' : b ≠ '/' := by
          rintro rfl
          refine hslash (Glob.slash_mem_escapeChar.1 ?_)
          rw [hb]
          exact List.mem_cons_self
        rw [(componentsOf_relative hfirst hb').2, ← String.ofList_toList (s := p.globText),
          htext] at hc
        exact hpieces (d :: ds) hc

/-- Whatever the directory of a pattern is called, files are found if its rest is a
pattern. -/
theorem exists_findFiles {p : ImportPattern} (hrest : p.rest ≠ "")
    (hwhole : ∀ position opens, ∃ ts,
      Glob.tokens position opens 0 ('/' :: p.rest.toList) = .ok ts)
    (hcomponents : ∀ c ∈ Glob.cut p.rest, ∃ ts, Glob.compile c = .ok ts) (t : FileTree) :
    ∃ files, p.findFiles t = .ok files := by
  have hcompile : ∃ ts, Glob.compile p.globText = .ok ts := by
    rw [Glob.compile, toList_globText hrest]
    exact Glob.exists_tokens_escape hwhole _ 0 true
  obtain ⟨steps, hsteps⟩ := Glob.exists_stepsOf hcompile fun c hc => by
    rcases mem_componentsOf_globText hrest hc with ⟨q, rfl⟩ | hc
    · exact ⟨_, by rw [Glob.compile, String.toList_ofList, Glob.tokens_escape]⟩
    · exact hcomponents c hc
  rw [findFiles_eq, hsteps]
  exact ⟨_, rfl⟩

end ImportPattern

/-- The translations of a page are always read. -/
theorem Translations.exists_ofPage (t : FileTree) (id : String) (dir : Path)
    (languages : Option (List String)) (specifierOf : Path → String) :
    ∃ translations, ofPage t id dir languages specifierOf = .ok translations := by
  have hyamlChars : "*.yaml".toList = ['*', '.', 'y', 'a', 'm', 'l'] := by decide
  have hymlChars : "*.yml".toList = ['*', '.', 'y', 'm', 'l'] := by decide
  have hyamlCut : Glob.cut "*.yaml" = ["*.yaml"] := by decide +kernel
  have hymlCut : Glob.cut "*.yml" = ["*.yml"] := by decide +kernel
  obtain ⟨xs, hxs⟩ := ImportPattern.exists_findFiles (p := ⟨dir, "*.yaml", .here⟩)
    (by decide : "*.yaml" ≠ "")
    (fun position opens => by simp [hyamlChars, Glob.tokens, Except.map])
    (by simp [hyamlCut, Glob.compile, hyamlChars, Glob.tokens, Except.map]) t
  obtain ⟨ys, hys⟩ := ImportPattern.exists_findFiles (p := ⟨dir, "*.yml", .here⟩)
    (by decide : "*.yml" ≠ "") (fun position opens => by simp [hymlChars, Glob.tokens, Except.map])
    (by simp [hymlCut, Glob.compile, hymlChars, Glob.tokens, Except.map]) t
  rw [ofPage_eq (p := ⟨dir, "*.yaml", .here⟩) (q := ⟨dir, "*.yml", .here⟩)
    (ImportPattern.resolve_here dir ['*', '.', 'y', 'a', 'm', 'l'])
    (ImportPattern.resolve_here dir ['*', '.', 'y', 'm', 'l']), hxs, hys]
  exact ⟨_, rfl⟩

end SiteMacros
