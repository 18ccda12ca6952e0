import SiteMacros.Proofs.PageTranslations

/-!
# Valid patterns

A pattern is compiled as a whole, and then once more component by component. A text can be a
pattern as a whole and not in its components, since a class may go over a slash. The other way
round there is no difference: what makes a component a pattern has come to an end where the
component ends, so it stays one wherever it stands (`exists_tokens_append`). A search therefore
fails only for a component that is no pattern (`ImportPattern.RestSteps.exists_findFiles`).
-/

namespace SiteMacros

namespace Glob

theorem takeWhile_append_of_mem {c : Char} {cs : List Char} (h : c ∈ cs) (g : List Char) :
    (cs ++ g).takeWhile (· != c) = cs.takeWhile (· != c) ∧
      (cs.takeWhile (· != c)).length < cs.length := by
  induction cs with
  | nil => cases h
  | cons d cs ih =>
      rw [List.cons_append, List.takeWhile_cons, List.takeWhile_cons]
      by_cases hd : d = c
      · rw [hd, bne_self_eq_false]
        exact ⟨rfl, Nat.succ_pos _⟩
      · obtain ⟨heq, hlt⟩ := ih (List.mem_of_ne_of_mem (Ne.symm hd) h)
        rw [bne_iff_ne.2 hd, if_pos rfl, if_pos rfl, heq]
        exact ⟨rfl, Nat.succ_lt_succ hlt⟩

theorem classBody?_append {first : Char} {rest body : List Char}
    (h : classBody? first rest = some body) (g : List Char) :
    classBody? first (rest ++ g) = some body ∧ body.length ≤ rest.length := by
  rw [classBody?] at h
  split at h
  · next hcloses =>
      cases h
      rw [List.contains_iff_mem] at hcloses
      obtain ⟨heq, hlt⟩ := takeWhile_append_of_mem hcloses g
      rw [classBody?, if_pos (List.contains_iff_mem.2 (List.mem_append_left g hcloses)), heq]
      exact ⟨rfl, hlt⟩
  · cases h

/-- A class is complete, whatever comes behind it. -/
theorem class?_append {cs : List Char} {t : Token} {length : Nat}
    (h : class? cs = some (t, length)) (g : List Char) :
    class? (cs ++ g) = some (t, length) ∧ length ≤ cs.length := by
  rw [class?.eq_def] at h
  split at h
  · next first rest =>
      obtain ⟨body, hbody, heq⟩ := Option.map_eq_some_iff.1 h
      cases heq
      obtain ⟨hwhole, hlength⟩ := classBody?_append hbody g
      rw [List.cons_append, List.cons_append, class?, hwhole]
      exact ⟨rfl, Nat.succ_le_succ (Nat.succ_le_succ hlength)⟩
  · cases h
  · next first rest hbang hlone =>
      obtain ⟨body, hbody, heq⟩ := Option.map_eq_some_iff.1 h
      cases heq
      obtain ⟨hwhole, hlength⟩ := classBody?_append hbody g
      have hfirst : first ≠ '!' := by
        rintro rfl
        cases rest with
        | nil => exact hlone rfl rfl
        | cons c rest => exact hbang c rest rfl rfl
      refine ⟨?_, Nat.succ_le_succ hlength⟩
      rw [List.cons_append, class?, hwhole]
      · rfl
      · exact fun _ _ heq => absurd heq hfirst
      · exact fun heq => absurd heq hfirst
  · cases h

/-- Does a component end where the text begins? -/
def endsBefore (g : List Char) : Bool :=
  g.isEmpty || g.head? == some '/'

theorem endsBefore_append {rest g : List Char} (hrest : endsBefore rest = true)
    (hg : endsBefore g = true) : endsBefore (rest ++ g) = true := by
  cases rest with
  | nil => exact hg
  | cons c rest => exact hrest

theorem head?_append_ne_star {cs g : List Char} (hcs : cs.head? ≠ some '*')
    (hg : endsBefore g = true) : (cs ++ g).head? ≠ some '*' := by
  cases cs with
  | nil =>
      intro hstar
      rw [List.nil_append] at hstar
      obtain ⟨tail, rfl⟩ := List.head?_eq_some_iff.1 hstar
      cases hg
  | cons c cs => exact hcs

theorem tokens_many {cs : List Char} (h : cs.head? ≠ some '*') (position : Nat) (opens : Bool) :
    tokens position opens 0 ('*' :: cs) =
      (tokens (position + 1) false 0 cs).map (.many :: ·) := by
  cases cs with
  | nil => rfl
  | cons c cs =>
      have hc : c ≠ '*' := fun heq => h (congrArg some heq)
      simp [tokens, hc]

theorem tokens_stars {rest : List Char} (h : rest.head? ≠ some '*') (position : Nat)
    (opens : Bool) :
    tokens position opens 0 ('*' :: '*' :: rest) =
      if !opens then .error ⟨.recursiveWildcard, position - 1⟩
      else if endsBefore rest then
        (tokens (position + 1) false 1 ('*' :: rest)).map (.deep :: ·)
      else .error ⟨.recursiveWildcard, position + 2⟩ := by
  cases rest with
  | nil => rfl
  | cons c rest =>
      rw [tokens.eq_def]
      dsimp only
      split
      · next heq => cases heq
      · split
        · next heq =>
            cases heq
            exact absurd rfl h
        · next heq =>
            cases heq
            rfl
        · next hnot => exact absurd rfl (hnot _)
      all_goals contradiction

/-- A text is read on from its first character, and what follows the text does not change how:
the character makes the token `t`, the next `k` are skipped, and `o` says whether a component
begins behind it. -/
def ReadsOn (position : Nat) (opens : Bool) (c : Char) (cs g : List Char) : Prop :=
  ∃ (t : Token) (k : Nat) (o : Bool) (us : List Token),
    tokens (position + 1) o k cs = .ok us ∧ k ≤ cs.length ∧ ∀ position',
      tokens position' opens 0 (c :: (cs ++ g)) =
        (tokens (position' + 1) o k (cs ++ g)).map (t :: ·)

section

variable {position : Nat} {opens : Bool} {cs g : List Char} {ts : List Token}

theorem ReadsOn.of_map {c : Char} {t : Token} {k : Nat} {o : Bool}
    (h : (tokens (position + 1) o k cs).map (t :: ·) = .ok ts) (hk : k ≤ cs.length)
    (hsame : ∀ position', tokens position' opens 0 (c :: (cs ++ g)) =
      (tokens (position' + 1) o k (cs ++ g)).map (t :: ·)) :
    ReadsOn position opens c cs g := by
  cases hrest : tokens (position + 1) o k cs with
  | error e =>
      rw [hrest] at h
      cases h
  | ok us => exact ⟨t, k, o, us, hrest, hk, hsame⟩

/-- A slash behind a text makes no `**` of what is none. -/
theorem readsOn_star (hg : endsBefore g = true)
    (h : tokens position opens 0 ('*' :: cs) = .ok ts) : ReadsOn position opens '*' cs g := by
  by_cases hstar : cs.head? = some '*'
  · obtain ⟨rest, rfl⟩ := List.head?_eq_some_iff.1 hstar
    by_cases hthird : rest.head? = some '*'
    · obtain ⟨rest, rfl⟩ := List.head?_eq_some_iff.1 hthird
      cases h
    · rw [tokens_stars hthird] at h
      split at h
      · cases h
      · next hopens =>
          split at h
          · next hends =>
              refine .of_map h (Nat.succ_le_succ (Nat.zero_le _)) fun position' => ?_
              have hwhole := tokens_stars (head?_append_ne_star hthird hg) position' opens
              rw [if_neg hopens, if_pos (endsBefore_append hends hg)] at hwhole
              exact hwhole
          · cases h
  · rw [tokens_many hstar] at h
    have hone := head?_append_ne_star hstar hg
    exact .of_map h (Nat.zero_le _) fun position' => tokens_many hone position' opens

/-- What a text begins with is complete, if a slash follows the text or nothing does. -/
theorem readsOn (hg : endsBefore g = true) {c : Char}
    (h : tokens position opens 0 (c :: cs) = .ok ts) : ReadsOn position opens c cs g := by
  by_cases hstar : c = '*'
  · subst hstar
    exact readsOn_star hg h
  · rw [tokens.eq_def] at h
    dsimp only at h
    split at h
    · exact .of_map h (Nat.zero_le _) fun _ => rfl
    · exact absurd rfl hstar
    · split at h
      · next t length hclass =>
          obtain ⟨hwhole, hlength⟩ := class?_append hclass g
          refine .of_map h hlength fun position' => ?_
          rw [tokens]
          simp only [hwhole]
      · cases h
    · exact .of_map h (Nat.zero_le _) fun _ => rfl
    · next hone hmany hclass hslash =>
        have hplain : isPlain c = true := by
          simp only [isPlain, Bool.and_eq_true, bne_iff_ne]
          exact ⟨⟨hone, hmany⟩, hclass⟩
        refine .of_map h (Nat.zero_le _) fun position' => ?_
        rw [tokens_char hplain, beq_eq_false_iff_ne.2 hslash]

/-- A text that is a pattern is one wherever it stands, if a slash follows or nothing does. -/
theorem exists_tokens_append (hends : endsBefore g = true)
    (hg : ∀ position opens, ∃ ts, tokens position opens 0 g = .ok ts) {skip : Nat}
    (h : tokens position opens skip cs = .ok ts) (hskip : skip ≤ cs.length) (position' : Nat) :
    ∃ us, tokens position' opens skip (cs ++ g) = .ok us := by
  induction cs generalizing position position' opens skip ts with
  | nil =>
      cases Nat.le_zero.1 hskip
      exact hg position' opens
  | cons c cs ih =>
      rw [List.cons_append]
      cases skip with
      | succ skip =>
          rw [tokens] at h ⊢
          exact ih h (Nat.le_of_succ_le_succ hskip) _
      | zero =>
          obtain ⟨t, k, o, vs, hvs, hk, hsame⟩ := readsOn hends h
          obtain ⟨us, hus⟩ := ih hvs hk (position' + 1)
          exact ⟨t :: us, by rw [hsame, hus]; rfl⟩

end

/-- A text is a pattern wherever it stands if its pieces between slashes are patterns. -/
theorem exists_tokens_of_pieces {cs : List Char}
    (h : ∀ q ∈ Text.pieces '/' cs, ∃ ts, tokens 0 true 0 q = .ok ts) (position : Nat) :
    ∃ ts, tokens position true 0 cs = .ok ts := by
  by_cases hslash : '/' ∈ cs
  · obtain ⟨q, after, rfl, hq⟩ := List.eq_append_cons_of_mem hslash
    rw [Text.pieces_append_sep, Text.pieces_of_not_mem hq, List.singleton_append] at h
    obtain ⟨⟨ts, hts⟩, hafter⟩ := List.forall_mem_cons.1 h
    have hrest : ∀ position opens, ∃ us, tokens position opens 0 ('/' :: after) = .ok us := by
      intro position opens
      obtain ⟨us, hus⟩ := exists_tokens_of_pieces hafter (position + 1)
      have hplain : isPlain '/' = true := rfl
      exact ⟨.char '/' :: us, by rw [tokens_char hplain, beq_self_eq_true, hus]; rfl⟩
    exact exists_tokens_append rfl hrest hts (Nat.zero_le _) position
  · rw [Text.pieces_of_not_mem hslash] at h
    obtain ⟨ts, hts⟩ := h cs (List.mem_singleton_self cs)
    have hnone : ∀ position opens, ∃ us, tokens position opens 0 [] = .ok us :=
      fun _ _ => ⟨[], rfl⟩
    have hwhole := exists_tokens_append rfl hnone hts (Nat.zero_le _) position
    rwa [List.append_nil] at hwhole
termination_by cs.length
decreasing_by
  subst_vars
  simp
  omega

end Glob

namespace ImportPattern

variable {p : ImportPattern} {ss : List Glob.Step}

/-- Each component of the rest is a pattern. -/
theorem RestSteps.compile (h : p.RestSteps ss) {c : String} (hc : c ∈ Glob.cut p.rest) :
    ∃ ts, Glob.compile c = .ok ts := by
  have hsteps : (Glob.cut p.rest).map (fun c => (Glob.compile c).map Glob.Step.ofTokens) =
      ss.map .ok := h
  have hmem := List.mem_map_of_mem (f := fun c => (Glob.compile c).map Glob.Step.ofTokens) hc
  rw [hsteps] at hmem
  obtain ⟨s, -, hs⟩ := List.mem_map.1 hmem
  cases hts : Glob.compile c with
  | error e =>
      rw [hts] at hs
      cases hs
  | ok ts => exact ⟨ts, rfl⟩

/-- What does not count as a component is an empty piece. -/
theorem mem_cut_of_mem_split {s c : String} (h : c ∈ Text.split '/' s) (hc : c ≠ "") :
    c ∈ Glob.cut s := by
  rw [Glob.cut]
  split
  · next hlast =>
      obtain ⟨front, hfront⟩ := List.getLast?_eq_some_iff.1 hlast
      rw [hfront] at h ⊢
      rw [List.dropLast_concat]
      exact (List.mem_append.1 h).resolve_right fun hmem => hc (List.mem_singleton.1 hmem)
  · exact h

/-- A search does not fail if its components are patterns. -/
theorem RestSteps.exists_findFiles (h : p.RestSteps ss) (hrest : p.rest ≠ "") (t : FileTree) :
    ∃ files, p.findFiles t = .ok files := by
  have hpieces : ∀ q ∈ Text.pieces '/' p.rest.toList, ∃ ts, Glob.tokens 0 true 0 q = .ok ts := by
    intro q hq
    by_cases hempty : q = []
    · exact ⟨[], by rw [hempty]; rfl⟩
    · have hc : String.ofList q ∈ Text.split '/' p.rest := List.mem_map_of_mem hq
      obtain ⟨ts, hts⟩ := h.compile (mem_cut_of_mem_split hc fun heq =>
        hempty (String.ofList_eq_empty_iff.1 heq))
      rw [Glob.compile, String.toList_ofList] at hts
      exact ⟨ts, hts⟩
  refine ImportPattern.exists_findFiles hrest (fun position opens => ?_) (fun _ => h.compile) t
  obtain ⟨ts, hts⟩ := Glob.exists_tokens_of_pieces hpieces (position + 1)
  have hplain : Glob.isPlain '/' = true := rfl
  exact ⟨.char '/' :: ts, by rw [Glob.tokens_char hplain, beq_self_eq_true, hts]; rfl⟩

end ImportPattern

end SiteMacros
