import SiteMacros.Proofs.PageNames

/-!
# Which names are parameters

An underscore right behind the first index token marks a parameter, and the underscore is
not part of the segment. The two are looked for in different texts: the mark in the name as
it is, and the underscore in what is left of it without the tokens. They are the same
character if nothing is left of what stands before the mark. Then the mark is the first
character that is left, which is to say that it is left at its own place (`Marked`).

If something is left of the text before, the first character left is another one. As long
as that is no underscore, nothing happens. If it is one (`Doubled`), it goes in place of the
mark: `_x[1]_y` has the segment `:x_y`. That is the only way in which a segment becomes a
parameter without a mark at its start (`parse?_parameter_iff`).

To tell the two underscores apart the characters keep their places when the tokens are taken
out (`keep`). The brackets of a name may stand in any order here, and need not close.
-/

namespace SiteMacros.PageName

/-! ## Characters with their places -/

/-- The characters that are left without the tokens, each with its place. -/
def keep : (pending : Option (List (Char × Nat))) → List (Char × Nat) → List (Char × Nat)
  | none, [] => []
  | some opened, [] => opened.reverse
  | none, c :: cs => if c.1 = '[' then keep (some [c]) cs else c :: keep none cs
  | some opened, c :: cs => if c.1 = ']' then keep none cs else keep (some (c :: opened)) cs

/-- The characters that are left are the text without its tokens. -/
theorem map_fst_keep (pending : Option (List (Char × Nat))) (cs : List (Char × Nat)) :
    (keep pending cs).map Prod.fst =
      stripTokens (pending.map (·.map Prod.fst)) (cs.map Prod.fst) := by
  induction cs generalizing pending with
  | nil =>
      cases pending with
      | none => rfl
      | some opened => exact List.map_reverse
  | cons c cs ih =>
      cases pending with
      | none =>
          rw [keep, List.map_cons, Option.map_none, stripTokens]
          split
          · next hopen =>
              rw [ih, Option.map_some, List.map_singleton, hopen]
          · rw [List.map_cons, ih]
            rfl
      | some opened =>
          rw [keep, List.map_cons, Option.map_some, stripTokens]
          split <;> rw [ih] <;> rfl

/-- Nothing is left that was not there. -/
theorem mem_of_mem_keep {pending : Option (List (Char × Nat))} {cs : List (Char × Nat)}
    {q : Char × Nat} (h : q ∈ keep pending cs) :
    q ∈ cs ∨ ∃ opened, pending = some opened ∧ q ∈ opened := by
  induction cs generalizing pending with
  | nil =>
      cases pending with
      | none => exact absurd h List.not_mem_nil
      | some opened =>
          rw [keep, List.mem_reverse] at h
          exact .inr ⟨opened, rfl, h⟩
  | cons c cs ih =>
      have hlater : ∀ {pending}, q ∈ keep pending cs →
          q ∈ c :: cs ∨ ∃ opened, pending = some opened ∧ q ∈ opened :=
        fun hq => (ih hq).imp_left (List.mem_cons_of_mem c)
      cases pending with
      | none =>
          rw [keep] at h
          split at h
          · rcases hlater h with hq | ⟨_, heq, hq⟩
            · exact .inl hq
            · cases heq
              rw [List.mem_singleton.1 hq]
              exact .inl List.mem_cons_self
          · rcases List.mem_cons.1 h with rfl | hq
            · exact .inl List.mem_cons_self
            · exact hlater hq
      | some opened =>
          rw [keep] at h
          split at h
          · rcases hlater h with hq | ⟨_, hnone, -⟩
            · exact .inl hq
            · exact nomatch hnone
          · rcases hlater h with hq | ⟨_, heq, hq⟩
            · exact .inl hq
            · cases heq
              rcases List.mem_cons.1 hq with rfl | hq
              · exact .inl List.mem_cons_self
              · exact .inr ⟨opened, rfl, hq⟩

theorem keep_close {cs : List (Char × Nat)} (h : ∀ c ∈ cs, c.1 ≠ ']') {close : Char × Nat}
    (hclose : close.1 = ']') (opened rest : List (Char × Nat)) :
    keep (some opened) (cs ++ close :: rest) = keep none rest := by
  induction cs generalizing opened with
  | nil => rw [List.nil_append, keep, if_pos hclose]
  | cons c cs ih =>
      obtain ⟨hc, hcs⟩ := List.forall_mem_cons.1 h
      rw [List.cons_append, keep, if_neg hc, ih hcs]

/-- A token closes whatever is open before it. What is left of a text comes apart behind
each token. -/
theorem keep_append {cs : List (Char × Nat)} (h : ∀ c ∈ cs, c.1 ≠ ']') {first close : Char × Nat}
    (hfirst : first.1 = '[') (hclose : close.1 = ']') (before rest : List (Char × Nat))
    (pending : Option (List (Char × Nat))) :
    keep pending (before ++ first :: (cs ++ close :: rest)) =
      keep pending (before ++ first :: (cs ++ [close])) ++ keep none rest := by
  have htoken : ∀ pending rest, keep pending (first :: (cs ++ close :: rest)) = keep none rest := by
    intro pending rest
    cases pending with
    | none => rw [keep, if_pos hfirst, keep_close h hclose]
    | some opened =>
        rw [keep, if_neg (by rw [hfirst]; decide), keep_close h hclose]
  induction before generalizing pending with
  | nil =>
      rw [List.nil_append, List.nil_append, htoken, htoken]
      rfl
  | cons c before ih =>
      rw [List.cons_append, List.cons_append]
      cases pending with
      | none =>
          rw [keep, keep]
          split
          · exact ih _
          · rw [ih, List.cons_append]
      | some opened =>
          rw [keep, keep]
          split <;> exact ih _

/-! ## The first index token -/

/-- The text is cut at its first index token. -/
structure CutAtIndex (cs before body behind : List Char) : Prop where
  split : cs = before ++ '[' :: (body ++ ']' :: behind)
  numeral : ∃ negative digits, IsNumeral body negative digits
  first : ∀ before' body' behind', cs = before' ++ '[' :: (body' ++ ']' :: behind') →
    (∃ negative digits, IsNumeral body' negative digits) → before.length ≤ before'.length

theorem CutAtIndex.unique {cs before body behind before' body' behind' : List Char}
    (h : CutAtIndex cs before body behind) (h' : CutAtIndex cs before' body' behind') :
    before = before' ∧ body = body' ∧ behind = behind' := by
  have hlength : before.length = before'.length :=
    Nat.le_antisymm (h.first _ _ _ h'.split h'.numeral) (h'.first _ _ _ h.split h.numeral)
  obtain ⟨hbefore, hrest⟩ := List.append_inj (h.split.symm.trans h'.split) hlength
  obtain ⟨_, _, hnumeral⟩ := h.numeral
  obtain ⟨_, _, hnumeral'⟩ := h'.numeral
  exact ⟨hbefore, cut_inj hnumeral.close_not_mem hnumeral'.close_not_mem (List.cons.inj hrest).2⟩

theorem cutAtIndex_of_firstIndex? {cs : List Char} {t : IndexToken} (h : firstIndex? cs = some t) :
    ∃ before body behind, CutAtIndex cs before body behind ∧
      t.marked = (behind.head? == some '_') := by
  induction cs with
  | nil => exact nomatch h
  | cons c cs ih =>
      rw [firstIndex?] at h
      split at h
      · next found hfound =>
          cases h
          split at hfound
          · next hopen =>
              obtain ⟨body, behind, rfl, hnumeral, hmarked⟩ :=
                indexAfterBracket?_eq_some_iff.1 hfound
              exact ⟨[], body, behind,
                ⟨by rw [hopen]; rfl, ⟨_, _, hnumeral⟩, fun _ _ _ _ _ => Nat.zero_le _⟩, hmarked⟩
          · cases hfound
      · next hnone =>
          obtain ⟨before, body, behind, ⟨rfl, hnumeral, hfirst⟩, hmarked⟩ := ih h
          refine ⟨c :: before, body, behind, ⟨rfl, hnumeral, ?_⟩, hmarked⟩
          intro before' body' behind' heq hnumeral'
          cases before' with
          | nil =>
              -- an index token at the front would have been found
              obtain ⟨rfl, hrest⟩ := List.cons.inj heq
              obtain ⟨negative, digits, hnumeral'⟩ := hnumeral'
              rw [if_pos rfl, hrest] at hnone
              have hsome : indexAfterBracket? (body' ++ ']' :: behind') =
                  some ⟨negative, digits, behind'.head? == some '_'⟩ :=
                (indexAfterBracket?_close hnumeral'.close_not_mem).2 ⟨hnumeral', rfl⟩
              rw [hsome] at hnone
              cases hnone
          | cons d before' =>
              exact Nat.succ_le_succ (hfirst _ _ _ (List.cons.inj heq).2 hnumeral')

/-! ## Marks -/

/-- The characters of a name that are left without its tokens. -/
def kept (raw : String) : List (Char × Nat) :=
  keep none raw.toList.zipIdx

/-- The place right behind the first index token. -/
def EndsIndex (raw : String) (i : Nat) : Prop :=
  ∃ before body behind, CutAtIndex raw.toList before body behind ∧
    i = before.length + body.length + 2

/-- The first character left is an underscore that stands right behind the first index
token. -/
def Marked (raw : String) : Prop :=
  ∃ i, EndsIndex raw i ∧ (kept raw).head? = some ('_', i)

/-- An underscore stands right behind the first index token, and the first character left is
another underscore before it. -/
def Doubled (raw : String) : Prop :=
  ∃ i j, EndsIndex raw i ∧ raw.toList[i]? = some '_' ∧ (kept raw).head? = some ('_', j) ∧ j < i

/-- The segment is a parameter that has taken the place of an underscore. -/
def Rewritten (raw : String) (p : PageName) : Prop :=
  ∃ rest, clean raw = "_" ++ rest ∧ p.segment = ":" ++ rest ∧ p.endpoint = rest

theorem map_fst_kept (raw : String) : (kept raw).map Prod.fst = stripTokens none raw.toList := by
  rw [kept, map_fst_keep, List.zipIdx_map_fst]
  rfl

/-- Each character is left at its own place. -/
theorem getElem?_of_mem_kept {raw : String} {c : Char} {i : Nat} (h : (c, i) ∈ kept raw) :
    raw.toList[i]? = some c := by
  rcases mem_of_mem_keep h with hmem | ⟨_, hnone, -⟩
  · exact List.mem_zipIdx_iff_getElem?.1 hmem
  · exact nomatch hnone

section

variable {raw : String} {before body behind : List Char}
  (h : CutAtIndex raw.toList before body behind)

include h

theorem endsIndex_iff {i : Nat} : EndsIndex raw i ↔ i = before.length + body.length + 2 := by
  constructor
  · rintro ⟨before', body', behind', h', rfl⟩
    obtain ⟨rfl, rfl, -⟩ := h.unique h'
    rfl
  · rintro rfl
    exact ⟨before, body, behind, h, rfl⟩

theorem getElem?_endsIndex :
    raw.toList[before.length + body.length + 2]? = behind.head? := by
  have hsplit : raw.toList = (before ++ '[' :: (body ++ [']'])) ++ behind := by
    rw [h.split]
    simp
  have hlength : before.length + body.length + 2 = (before ++ '[' :: (body ++ [']'])).length := by
    simp
    omega
  rw [hsplit, hlength, List.getElem?_append_right (Nat.le_refl _), Nat.sub_self,
    List.head?_eq_getElem?]

/-- If the mark is there, it is left, and nothing behind it is the first to be left. -/
theorem le_of_head?_kept (hmark : behind.head? = some '_') {q : Char × Nat}
    (hq : (kept raw).head? = some q) : q.2 ≤ before.length + body.length + 2 := by
  obtain ⟨_, _, hnumeral⟩ := h.numeral
  obtain ⟨rest, rfl⟩ : ∃ rest, behind = '_' :: rest := by
    cases behind with
    | nil => exact nomatch hmark
    | cons c rest => exact ⟨rest, by rw [Option.some.inj hmark]⟩
  have hbody : ∀ c ∈ body.zipIdx (before.length + 1), c.1 ≠ ']' := by
    rintro ⟨c, i⟩ hc rfl
    exact hnumeral.close_not_mem (List.fst_mem_of_mem_zipIdx hc)
  have hsplit : kept raw = keep none (before ++ '[' :: (body ++ [']'])).zipIdx ++
      ('_', before.length + body.length + 2) ::
        keep none (rest.zipIdx (before.length + body.length + 3)) := by
    simp only [kept, h.split, List.zipIdx_append, List.zipIdx_cons, List.zipIdx_nil, Nat.zero_add]
    rw [keep_append hbody rfl rfl]
    have hplace : before.length + 1 + body.length + 1 = before.length + body.length + 2 := by omega
    rw [hplace]
    rfl
  rw [hsplit] at hq
  cases hfirst : keep none (before ++ '[' :: (body ++ [']'])).zipIdx with
  | nil =>
      rw [hfirst] at hq
      cases hq
      exact Nat.le_refl _
  | cons q' more =>
      rw [hfirst] at hq
      cases hq
      rcases mem_of_mem_keep (q := q) (by rw [hfirst]; exact List.mem_cons_self) with
        hmem | ⟨_, hnone, -⟩
      · have hlt := List.snd_lt_of_mem_zipIdx hmem
        simp only [List.length_append, List.length_cons, List.length_nil] at hlt
        omega
      · exact nomatch hnone

end

theorem head?_stripTokens_iff {raw : String} :
    (stripTokens none raw.toList).head? = some '_' ↔ ∃ j, (kept raw).head? = some ('_', j) := by
  rw [← map_fst_kept, List.head?_map, Option.map_eq_some_iff]
  constructor
  · rintro ⟨⟨_, j⟩, hhead, rfl⟩
    exact ⟨j, hhead⟩
  · rintro ⟨j, hhead⟩
    exact ⟨_, hhead, rfl⟩

/-- The two underscores need not be one. -/
theorem rewritten_iff {raw : String} {marked : Bool} {p : PageName}
    (h : Reads (stripTokens none raw.toList) marked p) :
    Rewritten raw p ↔ marked = true ∧ ∃ j, (kept raw).head? = some ('_', j) := by
  rw [← head?_stripTokens_iff]
  constructor
  · rintro ⟨rest, hclean, hsegment, -⟩
    have htext : stripTokens none raw.toList = '_' :: rest.toList := by
      rw [← String.toList_ofList (l := stripTokens none raw.toList), ← clean, hclean,
        String.toList_append]
      rfl
    refine ⟨?_, by rw [htext]; rfl⟩
    by_contra hunmarked
    have hliteral := (h.literal fun _ => Bool.eq_false_iff.2 hunmarked).1
    rw [hsegment, ← clean, hclean] at hliteral
    have hfirst := congrArg (·.toList.head?) hliteral
    simp only [String.toList_append] at hfirst
    exact absurd (Option.some.inj hfirst) (by decide)
  · rintro ⟨hmarked, hhead⟩
    obtain ⟨rest, htext⟩ := List.head?_eq_some_iff.1 hhead
    obtain ⟨hsegment, hendpoint⟩ := h.parameter rest htext hmarked
    refine ⟨String.ofList rest, ?_, ?_, hendpoint⟩
    · rw [clean, htext]
      exact String.ofList_cons
    · rw [hsegment]
      exact String.ofList_cons

/-- A segment is a parameter if its first underscore is the mark, or if it is another one and
stands before the mark. All other segments are the name without its tokens. It is the second
case alone in which the mark and the underscore are not one character. -/
theorem parse?_parameter_iff {raw : String} {p : PageName} (h : parse? raw = some p) :
    (Rewritten raw p ↔ Marked raw ∨ Doubled raw) ∧
      (¬ Rewritten raw p → p.segment = clean raw ∧ p.endpoint = clean raw) ∧
      ((Rewritten raw p ↔ Marked raw) ↔ ¬ Doubled raw) := by
  obtain ⟨t, ht, -, -, hreads⟩ := of_parse? h
  obtain ⟨before, body, behind, hcut, hmarked⟩ := cutAtIndex_of_firstIndex? ht
  have hmark : t.marked = true ↔ behind.head? = some '_' := by
    rw [hmarked, beq_iff_eq]
  have hrewritten : Rewritten raw p ↔ Marked raw ∨ Doubled raw := by
    rw [rewritten_iff hreads, hmark]
    constructor
    · rintro ⟨hbehind, j, hhead⟩
      rcases Nat.eq_or_lt_of_le (le_of_head?_kept hcut hbehind hhead) with heq | hlt
      · exact .inl ⟨j, (endsIndex_iff hcut).2 heq, hhead⟩
      · exact .inr ⟨_, j, (endsIndex_iff hcut).2 rfl, (getElem?_endsIndex hcut).trans hbehind,
          hhead, hlt⟩
    · rintro (⟨i, hi, hhead⟩ | ⟨i, j, hi, hat, hhead, -⟩)
      · obtain rfl := (endsIndex_iff hcut).1 hi
        have hat := getElem?_of_mem_kept (List.mem_of_mem_head? hhead)
        exact ⟨(getElem?_endsIndex hcut).symm.trans hat, _, hhead⟩
      · obtain rfl := (endsIndex_iff hcut).1 hi
        exact ⟨(getElem?_endsIndex hcut).symm.trans hat, j, hhead⟩
  have hapart : Doubled raw → ¬ Marked raw := by
    rintro ⟨i, j, hi, -, hhead, hlt⟩ ⟨k, hk, hhead'⟩
    have hik : i = k := ((endsIndex_iff hcut).1 hi).trans ((endsIndex_iff hcut).1 hk).symm
    have hjk : j = k := (Prod.mk.inj (Option.some.inj (hhead.symm.trans hhead'))).2
    omega
  refine ⟨hrewritten, fun hnot => ?_, ?_⟩
  · refine hreads.literal fun hhead => ?_
    by_contra hmarked
    rw [Bool.not_eq_false] at hmarked
    exact hnot ((rewritten_iff hreads).2 ⟨hmarked, head?_stripTokens_iff.1 hhead⟩)
  · rw [hrewritten]
    exact ⟨fun hiff hdoubled => hapart hdoubled (hiff.1 (.inr hdoubled)),
      fun hnot => or_iff_left hnot⟩

/-- Tokens before the mark leave nothing of themselves. -/
theorem parameter_behind_tokens :
    parse? "[protect][1]_id" = some ⟨.menuItem 1, true, ":id", "id"⟩ ∧
      (Marked "[protect][1]_id" ∨ Doubled "[protect][1]_id") := by
  have h : parse? "[protect][1]_id" = some ⟨.menuItem 1, true, ":id", "id"⟩ := by decide +kernel
  exact ⟨h, (parse?_parameter_iff h).1.1 ⟨"id", by decide +kernel, by decide +kernel, rfl⟩⟩

/-- `_x[1]_y` is the parameter `:x_y`: the underscore at its start is taken for the mark. -/
theorem parameter_without_mark :
    ¬ ∀ raw p, parse? raw = some p → (Rewritten raw p ↔ Marked raw) := by
  intro h
  have hparse : parse? "_x[1]_y" = some ⟨.menuItem 1, false, ":x_y", "x_y"⟩ := by decide +kernel
  have hrewritten : Rewritten "_x[1]_y" ⟨.menuItem 1, false, ":x_y", "x_y"⟩ :=
    ⟨"x_y", by decide +kernel, by decide +kernel, rfl⟩
  obtain ⟨i, ⟨before, body, behind, -, rfl⟩, hhead⟩ := (h _ _ hparse).1 hrewritten
  have hplace : (kept "_x[1]_y").head? = some ('_', 0) := by decide +kernel
  rw [hplace] at hhead
  exact absurd (Prod.mk.inj (Option.some.inj hhead)).2 (by omega)

end SiteMacros.PageName
