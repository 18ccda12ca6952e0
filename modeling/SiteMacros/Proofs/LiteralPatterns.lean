import SiteMacros.Proofs.Patterns

/-!
# Patterns that match one text

A pattern in which every special character is escaped matches one text only. It is cut at the
slashes of that text, and each piece comes back as a step that can lead one way: the piece
itself, or tokens that match it and nothing else (`Step.Goes`). An escaped piece is a name,
since the pieces that are none (the empty one, `.` and `..`) have nothing to escape.

A search with such steps finds one path or none, and it finds the path exactly if the path is
there (`filter_walkSteps`). Its first step that is not there ends it, and what is further on
is not there either.
-/

namespace SiteMacros

open FileTree (stepOf)

namespace Glob

/-! ## Texts of patterns -/

/-- Does the character stand for itself outside of a class? -/
def isPlain (c : Char) : Bool :=
  c != '?' && c != '*' && c != '['

/-- The pattern matches the text, each character by itself or in a class of its own. -/
inductive Spells : List Char → List Char → Prop
  | nil : Spells [] []
  | escaped (c : Char) {g w : List Char} (h : Spells g w) : Spells (escapeChar c ++ g) (c :: w)
  | plain {c : Char} {g w : List Char} (hc : isPlain c = true) (h : Spells g w) :
      Spells (c :: g) (c :: w)

theorem Spells.of_plain {cs : List Char} (h : ∀ c ∈ cs, isPlain c = true) : Spells cs cs := by
  induction cs with
  | nil => exact .nil
  | cons c cs ih =>
      obtain ⟨hc, hcs⟩ := List.forall_mem_cons.1 h
      exact .plain hc (ih hcs)

theorem Spells.escape_append (cs : List Char) {g w : List Char} (h : Spells g w) :
    Spells (cs.flatMap escapeChar ++ g) (cs ++ w) := by
  induction cs with
  | nil => exact h
  | cons c cs ih =>
      rw [List.flatMap_cons, List.append_assoc]
      exact .escaped c ih

theorem escapeChar_ne_nil (c : Char) : escapeChar c ≠ [] := by
  rw [escapeChar]
  split <;> simp

theorem Spells.eq_nil_iff {g w : List Char} (h : Spells g w) : g = [] ↔ w = [] := by
  cases h <;> simp [escapeChar_ne_nil]

/-- A slash is spelled as it is. -/
theorem Spells.of_slash {g w : List Char} (h : Spells g ('/' :: w)) :
    ∃ g', g = '/' :: g' ∧ Spells g' w := by
  cases h with
  | escaped _ h => exact ⟨_, rfl, h⟩
  | plain _ h => exact ⟨_, rfl, h⟩

/-- Pattern and text have their slashes in the same places. -/
theorem Spells.pieces {g w : List Char} (h : Spells g w) :
    List.Forall₂ Spells (Text.pieces '/' g) (Text.pieces '/' w) := by
  induction h with
  | nil => exact .cons .nil .nil
  | escaped c h ih =>
      rename_i g w
      by_cases hc : c = '/'
      · subst hc
        show List.Forall₂ Spells (Text.pieces '/' ('/' :: g)) _
        rw [Text.pieces, if_pos rfl, Text.pieces, if_pos rfl]
        exact .cons .nil ih
      · obtain ⟨q, qs, hq⟩ := List.exists_cons_of_ne_nil (Text.pieces_ne_nil '/' g)
        obtain ⟨r, rs, hr⟩ := List.exists_cons_of_ne_nil (Text.pieces_ne_nil '/' w)
        rw [hq, hr, List.forall₂_cons] at ih
        rw [Text.pieces_append_of_not_mem (fun hmem => hc (slash_mem_escapeChar.1 hmem)) hq,
          Text.pieces, if_neg hc, hr]
        exact .cons (.escaped c ih.1) ih.2
  | plain hplain h ih =>
      rename_i c g w
      rw [Text.pieces, Text.pieces]
      by_cases hc : c = '/'
      · rw [if_pos hc, if_pos hc]
        exact .cons .nil ih
      · obtain ⟨q, qs, hq⟩ := List.exists_cons_of_ne_nil (Text.pieces_ne_nil '/' g)
        obtain ⟨r, rs, hr⟩ := List.exists_cons_of_ne_nil (Text.pieces_ne_nil '/' w)
        rw [hq, hr, List.forall₂_cons] at ih
        rw [if_neg hc, if_neg hc, hq, hr]
        exact .cons (.plain hplain ih.1) ih.2

/-! ## Tokens that match one text -/

/-- The token matches the character only, in a class of its own if it is special. -/
def Token.IsOnly (t : Token) (c : Char) : Prop :=
  t = .char c ∨ t = .within [.single c] ∧ c ≠ '.'

theorem only?_of_isOnly {ts : List Token} {w : List Char} (h : List.Forall₂ Token.IsOnly ts w) :
    only? ts = some w := by
  induction h with
  | nil => rfl
  | cons hc _ ih =>
      rcases hc with rfl | ⟨rfl, -⟩ <;> rw [only?, ih] <;> rfl

/-- Dots are not in classes. -/
theorem plain?_of_dots {ts : List Token} {w : List Char} (h : List.Forall₂ Token.IsOnly ts w)
    (hw : w.all (· == '.') = true) : plain? ts = some w := by
  induction h with
  | nil => rfl
  | cons hc _ ih =>
      rw [List.all_cons, Bool.and_eq_true, beq_iff_eq] at hw
      rw [hc.resolve_right fun hclass => hclass.2 hw.1, plain?, ih hw.2]
      rfl

theorem tokens_char {c : Char} (hc : isPlain c = true) (position : Nat) (opens : Bool)
    (cs : List Char) :
    tokens position opens 0 (c :: cs) =
      (tokens (position + 1) (c == '/') 0 cs).map (.char c :: ·) := by
  simp only [isPlain, Bool.and_eq_true, bne_iff_ne] at hc
  rw [tokens.eq_def]
  dsimp only
  split
  · exact absurd rfl hc.1.1
  · exact absurd rfl hc.1.2
  · exact absurd rfl hc.2
  · rfl
  · next hslash => rw [beq_eq_false_iff_ne.2 hslash]

theorem tokens_class {c : Char} (hc : escapeChar c = ['[', c, ']']) (hbang : c ≠ '!')
    (position : Nat) (opens : Bool) (cs : List Char) :
    tokens position opens 0 (escapeChar c ++ cs) =
      (tokens (position + 3) false 0 cs).map (.within [.single c] :: ·) := by
  have hclass : class? (c :: ']' :: cs) = some (.within [.single c], 2) := by
    rw [class?]
    · simp [classBody?, classItems]
    · intro _ _ heq
      exact absurd heq hbang
    · intro heq
      exact absurd heq hbang
  rw [hc]
  simp [tokens, hclass]

theorem Spells.tokens {g w : List Char} (h : Spells g w) (position : Nat) (opens : Bool) :
    ∃ ts, tokens position opens 0 g = .ok ts ∧ List.Forall₂ Token.IsOnly ts w := by
  have hplain : ∀ {c : Char} {g w : List Char}, isPlain c = true →
      (∀ position opens, ∃ ts, Glob.tokens position opens 0 g = .ok ts ∧
        List.Forall₂ Token.IsOnly ts w) → ∀ position opens,
      ∃ ts, Glob.tokens position opens 0 (c :: g) = .ok ts ∧
        List.Forall₂ Token.IsOnly ts (c :: w) := by
    intro c g w hc ih position opens
    obtain ⟨ts, hts, honly⟩ := ih (position + 1) (c == '/')
    exact ⟨.char c :: ts, by rw [tokens_char hc, hts]; rfl, .cons (.inl rfl) honly⟩
  induction h generalizing position opens with
  | nil => exact ⟨[], rfl, .nil⟩
  | plain hc _ ih => exact hplain hc ih position opens
  | escaped c h ih =>
      by_cases hspecial : (c = '?' || c = '*' || c = '[' || c = ']') = true
      · have hescape : escapeChar c = ['[', c, ']'] := by rw [escapeChar, if_pos hspecial]
        have hne : c ≠ '!' ∧ c ≠ '.' := by
          constructor <;> rintro rfl <;> revert hspecial <;> decide
        obtain ⟨ts, hts, honly⟩ := ih (position + 3) false
        refine ⟨.within [.single c] :: ts, ?_, .cons (.inr ⟨rfl, hne.2⟩) honly⟩
        rw [tokens_class hescape hne.1, hts]
        rfl
      · have hescape : escapeChar c = [c] := by rw [escapeChar, if_neg hspecial]
        have hc : isPlain c = true := by
          simp only [Bool.or_eq_true, decide_eq_true_eq, not_or] at hspecial
          simp [isPlain, hspecial]
        rw [hescape]
        exact hplain hc ih position opens

/-! ## Steps that lead one way -/

/-- The step leads to the piece only. -/
inductive Step.Goes : Step → String → Prop
  | literal (w : String) : Goes (.literal w) w
  | wild {ts : List Token} {w : String} (honly : only? ts = some w.toList)
      (hcounts : w ≠ "" ∧ w ≠ "." ∧ w ≠ "..") : Goes (.wild ts) w

theorem Spells.goes {g w : List Char} (h : Spells g w) :
    ∃ s, (compile (String.ofList g)).map Step.ofTokens = .ok s ∧ s ≠ .deep ∧
      s.Goes (String.ofList w) := by
  obtain ⟨ts, hts, honly⟩ := h.tokens 0 true
  have hdeep : ts ≠ [.deep] := by
    rintro rfl
    cases honly with
    | cons hc _ => rcases hc with hc | ⟨hc, -⟩ <;> cases hc
  have hnames : only? ts = some w := only?_of_isOnly honly
  refine ⟨.ofTokens ts, by rw [compile, String.toList_ofList, hts]; rfl, ?_, ?_⟩
  · rw [Step.ofTokens, if_neg hdeep]
    split <;> simp
  · rw [Step.ofTokens, if_neg hdeep]
    split
    · next cs hcs =>
        rw [plain?_eq_some hcs, ImportPattern.only?_char, Option.some.injEq] at hnames
        rw [hnames]
        exact .literal _
    · next hspecial =>
        have hdots : ∀ s : String, s.toList.all (· == '.') = true → String.ofList w ≠ s := by
          rintro s hs rfl
          rw [String.toList_ofList] at hs
          rw [plain?_of_dots honly hs] at hspecial
          cases hspecial
        exact .wild (by rw [String.toList_ofList, hnames]) ⟨hdots "" rfl, hdots "." rfl, hdots ".." rfl⟩

/-- An empty piece at the end is left out of both. -/
theorem Spells.cut {g w : List Char} (h : Spells g w) :
    List.Forall₂ (fun c v => Spells c.toList v.toList) (cut (String.ofList g))
      (cut (String.ofList w)) := by
  have hdrop : ∀ {cs vs : List String}, List.Forall₂ (fun c v => Spells c.toList v.toList) cs vs →
      List.Forall₂ (fun c v => Spells c.toList v.toList)
        (if cs.getLast? = some "" then cs.dropLast else cs)
        (if vs.getLast? = some "" then vs.dropLast else vs) := by
    intro cs vs hcs
    induction hcs with
    | nil => exact .nil
    | cons hc hrest ih =>
        rename_i c v cs vs
        cases hrest with
        | nil =>
            have hempty : c = "" ↔ v = "" := by
              rw [← String.toList_eq_nil_iff, ← String.toList_eq_nil_iff, hc.eq_nil_iff]
            by_cases hv : v = ""
            · simp [hv, hempty.2 hv]
            · simp [hv, mt hempty.1 hv, hc]
        | cons hc' hrest =>
            simp only [List.getLast?_cons_cons, List.dropLast_cons_cons] at ih ⊢
            split at ih <;> split at ih <;> rename_i hcs hvs
            · rw [if_pos hcs, if_pos hvs]
              exact .cons hc ih
            · rw [if_pos hcs, if_neg hvs]
              exact .cons hc ih
            · rw [if_neg hcs, if_pos hvs]
              exact .cons hc ih
            · rw [if_neg hcs, if_neg hvs]
              exact .cons hc ih
  rw [Glob.cut, Glob.cut, Text.split, Text.split, String.toList_ofList, String.toList_ofList]
  refine hdrop (List.forall₂_map_left_iff.2 (List.forall₂_map_right_iff.2 ?_))
  simpa only [String.toList_ofList] using h.pieces

/-- The steps of a pattern that matches one text lead through the pieces of the text. -/
theorem Spells.stepsOf {pattern : String} {g w : List Char} (h : Spells g w)
    (hpattern : pattern.toList = '/' :: g) :
    ∃ steps, stepsOf pattern = .ok steps ∧
      List.Forall₂ Step.Goes steps (Glob.cut (String.ofList w)) := by
  have hmap : ∀ {cs vs : List String}, List.Forall₂ (fun c v => Spells c.toList v.toList) cs vs →
      ∃ ss, cs.map (fun c => (compile c).map Step.ofTokens) = ss.map .ok ∧ collapse ss = ss ∧
        List.Forall₂ Step.Goes ss vs := by
    intro cs vs hcs
    induction hcs with
    | nil => exact ⟨[], rfl, rfl, .nil⟩
    | cons hc _ ih =>
        obtain ⟨ss, hss, hcollapse, hgoes⟩ := ih
        obtain ⟨s, hs, hdeep, hgoes'⟩ := hc.goes
        rw [String.ofList_toList] at hs hgoes'
        refine ⟨s :: ss, by rw [List.map_cons, hs, hss, List.map_cons], ?_, .cons hgoes' hgoes⟩
        rw [collapse_cons hdeep, hcollapse]
  obtain ⟨steps, hsteps, hcollapse, hgoes⟩ := hmap h.cut
  have hcompile : ∃ ts, compile pattern = .ok ts := by
    obtain ⟨ts, hts, -⟩ := (Spells.plain (c := '/') rfl h).tokens 0 true
    exact ⟨ts, by rw [compile, hpattern, hts]⟩
  obtain ⟨ts, hts⟩ := hcompile
  refine ⟨steps, ?_, hgoes⟩
  rw [stepsOf_eq, hts, (ImportPattern.componentsOf_absolute hpattern).2,
    Expansion.mapM_eq_ok_iff.2 hsteps]
  show Except.ok (collapse steps) = _
  rw [hcollapse]

/-! ## Walks that lead one way -/

section

variable {t : FileTree} {p : Path} {w : String}

/-- A name is stepped to if the directory has an entry of the name. -/
theorem exists?_join_name (hp : p.text ≠ "") (hslash : '/' ∉ w.toList)
    (hcounts : w ≠ "" ∧ w ≠ "." ∧ w ≠ "..") {es : List (String × FileTree)}
    (hfind : t.find p = .ok (.dir es)) :
    t.exists? (p.join w) = (es.lookup w).isSome := by
  obtain ⟨-, here, hreach, hes⟩ := FileTree.reach_of_find hfind
  have hentry : t.get? (here ++ [w]) = es.lookup w := by
    rw [FileTree.get?_append, hes, Option.bind_some, FileTree.get?, FileTree.child?_dir]
    cases es.lookup w <;> rfl
  have hwalk : t.reach (p.join w) =
      if (es.lookup w).isSome then .ok (here ++ [w]) else .error .notFound := by
    rw [FileTree.reach_join hslash (.inl hp), hreach, ← hentry]
    exact FileTree.walk_name hes hcounts.1 hcounts.2.1 hcounts.2.2
  rw [Bool.eq_iff_iff, FileTree.exists?_iff (FileTree.text_join_ne_empty hslash (.inl hp)), hwalk]
  cases es.lookup w <;> simp

theorem exists?_join_of_not_dir (hp : p.text ≠ "") (hslash : '/' ∉ w.toList)
    (hfind : ∀ es, t.find p ≠ .ok (.dir es)) : t.exists? (p.join w) = false := by
  rw [← Bool.not_eq_true, FileTree.exists?_iff (FileTree.text_join_ne_empty hslash (.inl hp)),
    FileTree.reach_join hslash (.inl hp)]
  rintro ⟨dest, hdest⟩
  cases hreach : t.reach p with
  | error e =>
      rw [hreach] at hdest
      cases hdest
  | ok here =>
      rw [hreach] at hdest
      refine FileTree.walk_of_not_dir (fun es hes => ?_) dest hdest
      exact hfind es (FileTree.find_of_reach hp hreach hes)

/-- Tokens that match one name find nothing where there is no such entry. -/
theorem walkSteps_wild_none {ts : List Token} (honly : only? ts = some w.toList)
    (hcounts : w ≠ "" ∧ w ≠ "." ∧ w ≠ "..") {es : List (String × FileTree)}
    (hfind : t.find p = .ok (.dir es)) (hentry : es.lookup w = none) (rest : List Step) :
    walkSteps t (.wild ts :: rest) p = [] := by
  have hmatch : ∀ n : String, matchTokens ts n.toList = true ↔ n = w := by
    intro n
    rw [matchTokens_only honly, String.toList_inj]
  have hdots : dotSteps ts = [] := by
    refine List.eq_nil_iff_forall_not_mem.2 fun s hs => ?_
    have hw : s = w := by
      rw [dotSteps] at hs
      split at hs
      · exact (hmatch s).1 (List.mem_filter.1 hs).2
      · exact absurd hs List.not_mem_nil
    rcases dotSteps_subset hs with hdot | hdot
    · exact hcounts.2.2 (hw ▸ hdot)
    · exact hcounts.2.1 (hw ▸ hdot)
  have hentries : entriesFound (fun n _ =>
      if matchTokens ts n.toList then some (walkSteps t rest (p.join n)) else none) es = [] := by
    refine List.eq_nil_iff_forall_not_mem.2 fun x hx => ?_
    obtain ⟨c, hc, hx⟩ := mem_entriesFound.1 hx
    split at hx
    · next hmatched =>
        rw [hmatch] at hmatched
        rw [List.lookup_eq_none_iff] at hentry
        simpa [hmatched] using hentry _ hc
    · cases hx
  rw [walkSteps_wild hfind, hdots, hentries]
  rfl

/-- A step that leads one way only leads to what is there. -/
theorem walkSteps_goes (hsound : t.Sound) (hp : p.text ≠ "") {s : Step} (h : s.Goes w)
    (hslash : '/' ∉ w.toList) (rest : List Step) :
    walkSteps t (s :: rest) p =
      if t.exists? (p.join w) then walkSteps t rest (p.join w) else [] := by
  cases h with
  | literal => exact walkSteps_literal (.inl hp)
  | wild honly hcounts =>
      rename_i ts
      cases hfind : t.find p with
      | error e =>
          rw [walkSteps, hfind, exists?_join_of_not_dir hp hslash fun es hes => ?_]
          · rfl
          · rw [hfind] at hes
            cases hes
      | ok node =>
          cases node with
          | file text =>
              rw [walkSteps, hfind, exists?_join_of_not_dir hp hslash fun es hes => ?_]
              · rfl
              · rw [hfind] at hes
                cases hes
          | dir es =>
              rw [exists?_join_name hp hslash hcounts hfind]
              cases hentry : es.lookup w with
              | none => exact walkSteps_wild_none honly hcounts hfind hentry rest
              | some c =>
                  obtain ⟨-, here, -, hes⟩ := FileTree.reach_of_find hfind
                  exact walkSteps_wild_only hfind (hsound.distinct here es hes)
                    (FileTree.mem_of_lookup hentry) ⟨hcounts.2.1, hcounts.2.2⟩ honly

/-- Pieces that are joined to a path one after another are walked one after another. -/
theorem text_foldl_join_ne_empty (hp : p.text ≠ "") {ws : List String}
    (hslash : ∀ w ∈ ws, '/' ∉ w.toList) : (ws.foldl Path.join p).text ≠ "" := by
  induction ws generalizing p with
  | nil => exact hp
  | cons w ws ih =>
      obtain ⟨hw, hws⟩ := List.forall_mem_cons.1 hslash
      exact ih (FileTree.text_join_ne_empty hw (.inl hp)) hws

theorem reach_foldl_join (hp : p.text ≠ "") {ws : List String}
    (hslash : ∀ w ∈ ws, '/' ∉ w.toList) :
    t.reach (ws.foldl Path.join p) = (t.reach p).bind (t.walk · ws) := by
  induction ws generalizing p with
  | nil =>
      rw [List.foldl_nil]
      cases t.reach p <;> rfl
  | cons w ws ih =>
      obtain ⟨hw, hws⟩ := List.forall_mem_cons.1 hslash
      rw [List.foldl_cons, ih (FileTree.text_join_ne_empty hw (.inl hp)) hws,
        FileTree.reach_join hw (.inl hp)]
      cases t.reach p with
      | error e => rfl
      | ok here => exact (FileTree.walk_append t here [w] ws).symm

theorem components_foldl_join (hp : p.text ≠ "") {ws : List String}
    (hslash : ∀ w ∈ ws, '/' ∉ w.toList) :
    (ws.foldl Path.join p).components = p.components ++ ws.filterMap stepOf := by
  induction ws generalizing p with
  | nil => exact (List.append_nil _).symm
  | cons w ws ih =>
      obtain ⟨hw, hws⟩ := List.forall_mem_cons.1 hslash
      rw [List.foldl_cons, ih (FileTree.text_join_ne_empty hw (.inl hp)) hws,
        FileTree.components_join hw (.inl hp), List.append_assoc, List.filterMap_cons]
      cases stepOf w <;> rfl

/-- What is further on is there only if the first step is. -/
theorem exists?_of_foldl_join (hp : p.text ≠ "") {ws : List String}
    (hslash : ∀ w ∈ ws, '/' ∉ w.toList) (h : t.exists? (ws.foldl Path.join p) = true) :
    t.exists? p = true := by
  rw [FileTree.exists?_iff (text_foldl_join_ne_empty hp hslash), reach_foldl_join hp hslash] at h
  rw [FileTree.exists?_iff hp]
  obtain ⟨dest, hdest⟩ := h
  cases hreach : t.reach p with
  | ok here => exact ⟨here, rfl⟩
  | error e =>
      rw [hreach] at hdest
      cases hdest

/-- Of what is there, a search that leads one way finds one path at most. -/
theorem filter_walkSteps (hsound : t.Sound) (hp : p.text ≠ "") {steps : List Step}
    {ws : List String} (h : List.Forall₂ Step.Goes steps ws) (hslash : ∀ w ∈ ws, '/' ∉ w.toList)
    {f : Path → Bool} (hf : ∀ q, f q = true → t.exists? q = true) :
    (walkSteps t steps p).filter f = [ws.foldl Path.join p].filter f := by
  induction h generalizing p with
  | nil => rw [walkSteps, List.foldl_nil]
  | cons hgoes hrest ih =>
      rename_i s w steps ws
      obtain ⟨hw, hws⟩ := List.forall_mem_cons.1 hslash
      have hjoin := FileTree.text_join_ne_empty hw (.inl hp)
      rw [walkSteps_goes hsound hp hgoes hw, List.foldl_cons]
      split
      · exact ih hjoin hws
      · next hnothing =>
          -- what is not there is not found, and nothing of it is asked for
          have hout : f (ws.foldl Path.join (p.join w)) = false := by
            rw [← Bool.not_eq_true]
            exact fun hfound => hnothing (exists?_of_foldl_join hjoin hws (hf _ hfound))
          simp [hout]

end

end Glob

end SiteMacros
