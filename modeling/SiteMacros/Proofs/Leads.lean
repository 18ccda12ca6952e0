import SiteMacros.Proofs.Ancestors
import SiteMacros.Session

/-!
# Where a path leads

An absolute path without `..` leads through names from the root, whatever slashes
and dots it is written with (`Leads`). A path that a name is joined to leads one
name further, and the place of a source file in the output tree has the names below
the root of the output tree that the file has below the root of the sources
(`outputPath?_leads`).

Whether a path ends in a name or in a slash or dot makes a difference to a file
system, for which only a directory can be before a slash. The paths of files end in
a name (`EndsInName`).
-/

namespace SiteMacros

theorem Text.pieces_append_sep (sep : Char) (a b : List Char) :
    pieces sep (a ++ sep :: b) = pieces sep a ++ pieces sep b := by
  induction a with
  | nil => simp [pieces]
  | cons c cs ih =>
      rw [List.cons_append, pieces, pieces, ih]
      by_cases hc : c = sep
      · rw [if_pos hc, if_pos hc, List.cons_append]
      · rw [if_neg hc, if_neg hc]
        cases hp : pieces sep cs with
        | nil => exact absurd hp (pieces_ne_nil sep cs)
        | cons p ps => rfl

theorem Text.pieces_of_not_mem {sep : Char} {cs : List Char} (h : sep ∉ cs) :
    pieces sep cs = [cs] := by
  rw [pieces_eq_splitOn]
  have hsep : ∀ l ∈ [cs], sep ∉ l := fun l hl => List.mem_singleton.1 hl ▸ h
  have hjoined := List.splitOn_intercalate sep hsep (List.cons_ne_nil _ _)
  rwa [List.intercalate_singleton] at hjoined

/-- Texts without the separator come apart as they were put together. -/
theorem Text.pieces_intercalate_toList {sep : Char} {s : String} (hs : s.toList = [sep])
    {ns : List String} (hne : ns ≠ []) (h : ∀ n ∈ ns, sep ∉ n.toList) :
    pieces sep (s.intercalate ns).toList = ns.map String.toList := by
  rw [String.toList_intercalate, hs]
  refine pieces_intercalate (fun hnil => hne (List.map_eq_nil_iff.1 hnil)) fun p hp => ?_
  obtain ⟨n, hn, rfl⟩ := List.mem_map.1 hp
  exact h n hn

namespace Path

/-- The path leads from the root through these names. -/
structure Leads (p : Path) (ns : List String) : Prop where
  isAbsolute : p.isAbsolute = true
  steps : p.pieces.filterMap (·.2) = ns.map .name

/-- The path does not end in a slash or a dot. -/
def EndsInName (p : Path) : Prop :=
  ∀ q, p.pieces.getLast? = some q → idle q = false

theorem Leads.components_eq {p : Path} {ns : List String} (h : p.Leads ns) :
    p.components = .root :: ns.map .name := by
  rw [components, h.isAbsolute, if_pos rfl, h.steps]

theorem map_name_inj {ms ns : List String} (h : ms.map Component.name = ns.map .name) : ms = ns :=
  List.map_inj_right (fun _ _ h => Component.name.inj h) |>.1 h

theorem Leads.names_eq {p q : Path} {ms ns : List String} (hp : p.Leads ms) (hq : q.Leads ns)
    (h : p.components = q.components) : ms = ns := by
  rw [hp.components_eq, hq.components_eq] at h
  exact map_name_inj (List.cons.inj h).2

theorem Leads.components_inj {p q : Path} {ns : List String} (hp : p.Leads ns) (hq : q.Leads ns) :
    p.components = q.components := by
  rw [hp.components_eq, hq.components_eq]

theorem map_name_prefix_iff {ms ns : List String} :
    ms.map Component.name <+: ns.map .name ↔ ms <+: ns := by
  constructor
  · intro h
    obtain ⟨ks, hks, heq⟩ := List.prefix_map_iff.1 h
    rwa [map_name_inj heq]
  · exact fun h => h.map _

theorem Leads.startsWith_iff {p q : Path} {ms ns : List String} (hp : p.Leads ms)
    (hq : q.Leads ns) : p.startsWith q = true ↔ ns <+: ms := by
  rw [startsWith, hp.components_eq, hq.components_eq, List.isPrefixOf_iff_prefix,
    List.cons_prefix_cons, and_iff_right rfl, map_name_prefix_iff]

/-! ## Pieces -/

theorem inner_snd_name {q : List Char} {n : String}
    (h : (pieces.inner q).2 = some (.name n)) :
    (pieces.inner q).1 = n ∧ n ≠ "" ∧ n ≠ "." ∧ n ≠ ".." := by
  simp only [pieces.inner, Bool.or_eq_true, decide_eq_true_eq] at h ⊢
  split at h
  · cases h
  · next hidle =>
      rw [if_neg hidle]
      split at h
      · cases h
      · next hup =>
          rw [if_neg hup]
          cases h
          rw [not_or] at hidle
          exact ⟨rfl, hidle.1, hidle.2, hup⟩

theorem inner_snd_none {q : List Char} :
    (pieces.inner q).2 = none ↔ (pieces.inner q).1 = "" ∨ (pieces.inner q).1 = "." := by
  rw [inner_fst]
  simp only [pieces.inner, Bool.or_eq_true, decide_eq_true_eq]
  split
  · next h => exact iff_of_true rfl h
  · next h =>
      refine iff_of_false ?_ h
      split <;> exact Option.some_ne_none _

theorem inner_of_name {n : String} (hslash : '/' ∉ n.toList) (hempty : n ≠ "") (hdot : n ≠ ".")
    (hup : n ≠ "..") :
    (Text.pieces '/' n.toList).map pieces.inner = [(n, some (.name n))] := by
  rw [Text.pieces_of_not_mem hslash, List.map_singleton]
  simp [pieces.inner, hempty, hdot, hup]

/-! ## Endings -/

theorem toList_of_endsWith {tail s : String} (h : Text.endsWith tail s = true) :
    ∃ cs, s.toList = cs ++ tail.toList := by
  rw [Text.endsWith, List.isPrefixOf_iff_prefix] at h
  obtain ⟨rest, hrest⟩ := h
  refine ⟨rest.reverse, ?_⟩
  rw [← List.reverse_reverse s.toList, ← hrest, List.reverse_append, List.reverse_reverse]

/-- The ending of a file name is the extension, unless there is nothing before it. -/
theorem extension?_of_endsWith {p : Path} {ending : String} (hdot : '.' ∉ ending.toList)
    (h : Text.endsWith ("." ++ ending) (p.fileName?.getD "") = true) :
    p.extension? = none ∨ p.extension? = some ending := by
  obtain ⟨cs, hcs⟩ := toList_of_endsWith h
  rw [String.toList_append, show ".".toList = ['.'] from rfl, List.singleton_append] at hcs
  rw [extension?]
  cases hname : p.fileName? with
  | none => exact .inl rfl
  | some name =>
      rw [hname, Option.getD_some] at hcs
      have hpieces := Text.pieces_append_sep '.' cs ending.toList
      rw [← hcs, Text.pieces_of_not_mem hdot] at hpieces
      simp only [Option.bind_eq_bind, Option.bind_some, hpieces, List.reverse_append,
        List.reverse_singleton, List.singleton_append]
      cases hbefore : (Text.pieces '.' cs).reverse with
      | nil => exact absurd (List.reverse_eq_nil_iff.1 hbefore) (Text.pieces_ne_nil '.' cs)
      | cons q qs =>
          dsimp only
          split
          · exact .inl rfl
          · exact .inr (by rw [String.ofList_toList])

/-! ## Joined paths -/

/-- The pieces of a joined path are those of the two, where an empty piece at the
end of the first one may be lost. -/
theorem pieces_join {p : Path} {q : String} (hp : p.isAbsolute = true)
    (hq : (Path.mk q).isAbsolute = false) :
    (p.join q).isAbsolute = true ∧
      ∃ before, (p.join q).pieces = before ++ (Text.pieces '/' q.toList).map pieces.inner ∧
        before.filterMap (·.2) = p.pieces.filterMap (·.2) := by
  obtain ⟨cs, hcs⟩ := p.isAbsolute_iff.1 hp
  have hne : p.text.isEmpty = false := by
    rw [Bool.eq_false_iff, ne_eq, String.isEmpty_iff]
    intro hempty
    rw [hempty] at hcs
    exact nomatch hcs
  rw [join, if_neg (by rw [hq]; exact Bool.false_ne_true), hne, Bool.false_or]
  split
  · next hend =>
      obtain ⟨ds, hds⟩ := toList_of_endsWith hend
      cases ds with
      | nil =>
          have htext : (Path.mk (p.text ++ q)).text.toList = '/' :: q.toList := by
            rw [String.toList_append, hds]
            rfl
          have hp : p.text.toList = '/' :: [] := hds
          refine ⟨(isAbsolute_iff _).2 ⟨_, htext⟩, [], pieces_absolute htext, ?_⟩
          rw [pieces_absolute hp]
          decide
      | cons d ds =>
          have hp : p.text.toList = '/' :: (ds ++ ['/']) := by
            rw [hcs] at hds ⊢
            obtain ⟨rfl, rfl⟩ := List.cons.inj hds
            rfl
          have htext : (Path.mk (p.text ++ q)).text.toList = '/' :: (ds ++ '/' :: q.toList) := by
            rw [String.toList_append, hp]
            simp
          refine ⟨(isAbsolute_iff _).2 ⟨_, htext⟩, (Text.pieces '/' ds).map pieces.inner, ?_, ?_⟩
          · rw [pieces_absolute htext, Text.pieces_append_sep, List.map_append]
          · rw [pieces_absolute hp, Text.pieces_append_sep, List.map_append, List.filterMap_append]
            exact (List.append_nil _).symm
  · have htext : (Path.mk (p.text ++ "/" ++ q)).text.toList = '/' :: (cs ++ '/' :: q.toList) := by
      rw [String.toList_append, String.toList_append, hcs]
      simp
    refine ⟨(isAbsolute_iff _).2 ⟨_, htext⟩, (Text.pieces '/' cs).map pieces.inner, ?_, ?_⟩
    · rw [pieces_absolute htext, Text.pieces_append_sep, List.map_append]
    · rw [pieces_absolute hcs]

/-- A name of a file or directory: one step down, and nothing else. -/
structure IsName (n : String) : Prop where
  ne_empty : n ≠ ""
  ne_here : n ≠ "."
  ne_parent : n ≠ ".."
  noSlash : '/' ∉ n.toList

instance (n : String) : Decidable (IsName n) :=
  decidable_of_iff (n ≠ "" ∧ n ≠ "." ∧ n ≠ ".." ∧ '/' ∉ n.toList)
    ⟨fun ⟨hempty, hhere, hparent, hslash⟩ => ⟨hempty, hhere, hparent, hslash⟩,
      fun h => ⟨h.ne_empty, h.ne_here, h.ne_parent, h.noSlash⟩⟩

theorem IsName.isAbsolute {n : String} (h : IsName n) : (Path.mk n).isAbsolute = false := by
  rw [Bool.eq_false_iff, ne_eq, isAbsolute_iff]
  rintro ⟨cs, hcs⟩
  exact h.noSlash (hcs ▸ List.mem_cons_self)

theorem Leads.join_name {p : Path} {ns : List String} (hp : p.Leads ns) {n : String}
    (hn : IsName n) : (p.join n).Leads (ns ++ [n]) ∧ (p.join n).EndsInName := by
  obtain ⟨habs, before, hpieces, hbefore⟩ := pieces_join hp.isAbsolute hn.isAbsolute
  rw [inner_of_name hn.noSlash hn.ne_empty hn.ne_here hn.ne_parent] at hpieces
  refine ⟨⟨habs, ?_⟩, ?_⟩
  · rw [hpieces, List.filterMap_append, hbefore, hp.steps, List.map_append]
    rfl
  · intro q hq
    rw [hpieces, List.getLast?_concat] at hq
    rw [← Option.some.inj hq]
    rfl

/-! ## Places below another root -/

theorem dropSteps_suffix (n : Nat) (ps : List (String × Option Component)) :
    dropSteps n ps <:+ ps := by
  induction ps generalizing n with
  | nil => cases n <;> exact List.nil_suffix
  | cons q qs ih =>
      cases n with
      | zero => exact List.suffix_refl _
      | succ n =>
          rw [dropSteps]
          split
          · exact (ih _).trans (List.suffix_cons q qs)
          · exact (ih _).trans (List.suffix_cons q qs)

theorem filterMap_dropSteps {n : Nat} {ps : List (String × Option Component)}
    (h : n ≤ (ps.filterMap (·.2)).length) :
    (dropSteps n ps).filterMap (·.2) = (ps.filterMap (·.2)).drop n := by
  induction ps generalizing n with
  | nil => cases n <;> rfl
  | cons q qs ih =>
      cases n with
      | zero => rfl
      | succ n =>
          obtain ⟨text, c?⟩ := q
          cases c? with
          | none =>
              have hidle : idle (text, none) = true := rfl
              rw [dropSteps, if_pos hidle, List.filterMap_cons_none rfl]
              rw [List.filterMap_cons_none rfl] at h
              exact ih h
          | some c =>
              have hcounts : ¬ idle (text, some c) = true := Bool.false_ne_true
              have hcons : ((text, some c) :: qs).filterMap (·.2) = c :: qs.filterMap (·.2) := rfl
              rw [dropSteps, if_neg hcounts, hcons, List.drop_succ_cons]
              rw [hcons, List.length_cons] at h
              exact ih (Nat.le_of_succ_le_succ h)

theorem filterMap_dropWhile_idle (ps : List (String × Option Component)) :
    (ps.dropWhile idle).filterMap (·.2) = ps.filterMap (·.2) := by
  conv => rhs; rw [← List.takeWhile_append_dropWhile (p := idle) (l := ps)]
  rw [List.filterMap_append,
    filterMap_of_idle (fun q hq => List.all_eq_true.1 List.all_takeWhile q hq)]
  rfl

theorem filterMap_dropEndWhile_idle (ps : List (String × Option Component)) :
    (Text.dropEndWhile idle ps).filterMap (·.2) = ps.filterMap (·.2) := by
  rw [Text.dropEndWhile, List.filterMap_reverse, filterMap_dropWhile_idle, List.filterMap_reverse,
    List.reverse_reverse]

theorem dropEndWhile_isPrefix {α : Type} (p : α → Bool) (xs : List α) :
    Text.dropEndWhile p xs <+: xs := by
  rw [Text.dropEndWhile, ← List.reverse_suffix, List.reverse_reverse]
  exact List.dropWhile_suffix p

/-- Pieces between slashes, put together, come apart again. -/
theorem pieces_ofPieces_inner {qs : List (List Char)} (hne : qs ≠ []) (hsep : ∀ q ∈ qs, '/' ∉ q) :
    Text.pieces '/' (ofPieces false (qs.map pieces.inner)).text.toList = qs := by
  rw [toList_text_ofPieces, map_fst_inner]
  exact Text.pieces_intercalate hne hsep

/-- Put together, they are a relative path if the first one counts and so is not
empty. -/
theorem isAbsolute_ofPieces_inner {q : List Char} {qs : List (List Char)}
    (hsep : ∀ r ∈ q :: qs, '/' ∉ r) (hfirst : idle (pieces.inner q) = false) :
    (ofPieces false ((q :: qs).map pieces.inner)).isAbsolute = false := by
  rw [Bool.eq_false_iff, ne_eq, isAbsolute_iff]
  rintro ⟨cs, hcs⟩
  have hcut := pieces_ofPieces_inner (List.cons_ne_nil q qs) hsep
  rw [hcs, Text.pieces, if_pos rfl] at hcut
  rw [← (List.cons.inj hcut).1] at hfirst
  cases hfirst

/-- The pieces without those at both ends that do not count. -/
def trimmed (ps : List (String × Option Component)) : List (String × Option Component) :=
  Text.dropEndWhile idle (ps.dropWhile idle)

theorem filterMap_trimmed (ps : List (String × Option Component)) :
    (trimmed ps).filterMap (·.2) = ps.filterMap (·.2) := by
  rw [trimmed, filterMap_dropEndWhile_idle, filterMap_dropWhile_idle]

theorem trimmed_isInfix (ps : List (String × Option Component)) : trimmed ps <:+: ps :=
  (dropEndWhile_isPrefix idle (ps.dropWhile idle)).isInfix.trans (List.dropWhile_suffix idle).isInfix

theorem head_trimmed {k : String × Option Component} {ps ks : List (String × Option Component)}
    (h : trimmed ps = k :: ks) : idle k = false := by
  obtain ⟨rest, hrest⟩ := dropEndWhile_isPrefix idle (ps.dropWhile idle)
  have hhead := List.head?_dropWhile_not idle ps
  rw [trimmed] at h
  rw [← hrest, h] at hhead
  simpa using hhead

theorem getLast_trimmed {k : String × Option Component} {ps : List (String × Option Component)}
    (h : (trimmed ps).getLast? = some k) : idle k = false := by
  have hlast : (Text.dropEndWhile idle (ps.dropWhile idle)).reverse.head? = some k := by
    rw [List.head?_reverse]
    exact h
  obtain ⟨before, hbefore⟩ := List.head?_eq_some_iff.1 hlast
  exact (Text.dropEndWhile_append_reverse hbefore).1

theorem infix_map_inner {ps : List (String × Option Component)} {rs : List (List Char)}
    (h : ps <:+: rs.map pieces.inner) :
    ∃ qs : List (List Char), ps = qs.map pieces.inner ∧ ∀ q ∈ qs, q ∈ rs := by
  obtain ⟨qs, hqs, heq⟩ := List.infix_map_iff.1 h
  exact ⟨qs, heq, fun q hq => hqs.mem hq⟩

/-- Pieces without those at both ends that do not count: put together they come apart
again. -/
theorem pieces_trimmed {rs : List (List Char)} (hsep : ∀ r ∈ rs, '/' ∉ r) :
    let ps := rs.map pieces.inner
    let rel := ofPieces false (trimmed ps)
    let qs := (Text.pieces '/' rel.text.toList).map pieces.inner
    rel.isAbsolute = false ∧ qs.filterMap (·.2) = ps.filterMap (·.2) ∧
      (ps.filterMap (·.2) ≠ [] → ∀ q, qs.getLast? = some q → idle q = false) := by
  intro ps rel qs
  obtain ⟨ts, heq, hts⟩ := infix_map_inner (trimmed_isInfix ps)
  have hsep : ∀ t ∈ ts, '/' ∉ t := fun t ht => hsep t (hts t ht)
  cases ts with
  | nil =>
      have hrel : rel = ofPieces false [] := congrArg (ofPieces false) heq
      have hnone : ps.filterMap (·.2) = [] := by
        rw [← filterMap_trimmed, heq]
        rfl
      refine ⟨?_, ?_, fun hne => absurd hnone hne⟩
      · rw [hrel]
        decide
      · show ((Text.pieces '/' rel.text.toList).map pieces.inner).filterMap (·.2) = _
        rw [hrel, hnone]
        decide
  | cons t ts =>
      have hqs : qs = trimmed ps := by
        show (Text.pieces '/' (ofPieces false (trimmed ps)).text.toList).map pieces.inner = _
        rw [heq, pieces_ofPieces_inner (List.cons_ne_nil t ts) hsep]
      refine ⟨?_, by rw [hqs, filterMap_trimmed], fun _ q hq => ?_⟩
      · show (ofPieces false (trimmed ps)).isAbsolute = false
        rw [heq]
        exact isAbsolute_ofPieces_inner hsep (head_trimmed heq)
      · rw [hqs] at hq
        exact getLast_trimmed hq

theorem dropSteps_cons_suffix (n : Nat) (q : String × Option Component)
    (qs : List (String × Option Component)) : dropSteps (n + 1) (q :: qs) <:+ qs := by
  rw [dropSteps]
  split
  · exact dropSteps_suffix _ qs
  · exact dropSteps_suffix _ qs

/-- Seen from a directory above it, a path has the steps that it takes from there,
wherever the directory is. -/
theorem relativeTo?_below {p base : Path} {cs : List Component} (hbase : base.components ≠ [])
    (h : p.components = base.components ++ cs) :
    ∃ rel, p.relativeTo? base = some rel ∧ rel.isAbsolute = false ∧
      ((Text.pieces '/' rel.text.toList).map pieces.inner).filterMap (·.2) = cs ∧
      (cs ≠ [] → ∀ q, ((Text.pieces '/' rel.text.toList).map pieces.inner).getLast? = some q →
        idle q = false) := by
  have hbelow : p.startsWith base = true := by
    rw [startsWith, List.isPrefixOf_iff_prefix]
    exact ⟨cs, h.symm⟩
  obtain ⟨n, hn⟩ := Nat.exists_eq_succ_of_ne_zero (mt List.length_eq_zero_iff.1 hbase)
  -- what is left of the pieces stands behind at least one, the root or the first piece
  have hkept : ∃ rs : List (List Char), (∀ r ∈ rs, '/' ∉ r) ∧
      dropSteps (if p.isAbsolute then n else n + 1) p.pieces = rs.map pieces.inner := by
    cases habs : p.isAbsolute with
    | true =>
        obtain ⟨ds, hds⟩ := p.isAbsolute_iff.1 habs
        rw [pieces_absolute hds]
        obtain ⟨rs, hrs, hmem⟩ :=
          infix_map_inner (dropSteps_suffix n ((Text.pieces '/' ds).map pieces.inner)).isInfix
        exact ⟨rs, fun r hr => Text.sep_not_mem_pieces (hmem r hr), hrs⟩
    | false =>
        obtain ⟨q, qs, hq⟩ := List.exists_cons_of_ne_nil (Text.pieces_ne_nil '/' p.text.toList)
        rw [pieces_relative habs hq]
        obtain ⟨rs, hrs, hmem⟩ := infix_map_inner (dropSteps_cons_suffix n _ _).isInfix
        have hcut : ∀ r ∈ rs, r ∈ Text.pieces '/' p.text.toList := fun r hr =>
          hq ▸ List.mem_cons_of_mem q (hmem r hr)
        exact ⟨rs, fun r hr => Text.sep_not_mem_pieces (hcut r hr), hrs⟩
  have hsteps : (dropSteps (if p.isAbsolute then n else n + 1) p.pieces).filterMap (·.2) = cs := by
    have hlength := congrArg List.length h
    rw [List.length_append, hn] at hlength
    have hdrop : p.components.drop (n + 1) = cs := by rw [h, List.drop_left' hn]
    cases habs : p.isAbsolute with
    | true =>
        rw [components, habs, if_pos rfl] at hlength hdrop
        rw [List.length_cons] at hlength
        rw [if_pos rfl, filterMap_dropSteps (by omega)]
        exact hdrop
    | false =>
        rw [components, habs, if_neg Bool.false_ne_true] at hlength hdrop
        rw [if_neg Bool.false_ne_true, filterMap_dropSteps (by omega)]
        exact hdrop
  obtain ⟨rs, hsep, hrs⟩ := hkept
  obtain ⟨habs, hcut, hlast⟩ := pieces_trimmed hsep
  rw [← hrs, hsteps] at hcut hlast
  rw [← hrs] at habs
  refine ⟨_, ?_, habs, hcut, hlast⟩
  rw [relativeTo?, if_pos hbelow, hn]
  rfl

theorem relativeTo?_steps {p base : Path} {cs : List Component} (hp : p.isAbsolute = true)
    (hbase : base.isAbsolute = true)
    (hsteps : p.pieces.filterMap (·.2) = base.pieces.filterMap (·.2) ++ cs) :
    ∃ rel, p.relativeTo? base = some rel ∧ rel.isAbsolute = false ∧
      ((Text.pieces '/' rel.text.toList).map pieces.inner).filterMap (·.2) = cs ∧
      (cs ≠ [] → ∀ q, ((Text.pieces '/' rel.text.toList).map pieces.inner).getLast? = some q →
        idle q = false) := by
  have hcomponents : base.components = .root :: base.pieces.filterMap (·.2) := by
    rw [components, hbase, if_pos rfl]
  refine relativeTo?_below (by rw [hcomponents]; exact List.cons_ne_nil _ _) ?_
  rw [hcomponents, components, hp, if_pos rfl, hsteps, List.cons_append]

/-- Seen from a directory above it, a path leads through the names below the
directory. -/
theorem relativeTo?_leads {p base : Path} {ks ns : List String} (hp : p.Leads (ks ++ ns))
    (hbase : base.Leads ks) :
    ∃ rel, p.relativeTo? base = some rel ∧ rel.isAbsolute = false ∧
      ((Text.pieces '/' rel.text.toList).map pieces.inner).filterMap (·.2) = ns.map .name ∧
      (ns ≠ [] → ∀ q, ((Text.pieces '/' rel.text.toList).map pieces.inner).getLast? = some q →
        idle q = false) := by
  have hsteps : p.pieces.filterMap (·.2) = base.pieces.filterMap (·.2) ++ ns.map .name := by
    rw [hp.steps, hbase.steps, List.map_append]
  obtain ⟨rel, hrel, habs, hcomponents, hlast⟩ :=
    relativeTo?_steps hp.isAbsolute hbase.isAbsolute hsteps
  exact ⟨rel, hrel, habs, hcomponents, fun hne => hlast fun h => hne (List.map_eq_nil_iff.1 h)⟩

/-! ## Parents -/

theorem root_not_mem_pieces (p : Path) : some Component.root ∉ p.pieces.map (·.2) := by
  have hinner : ∀ q, (pieces.inner q).2 ≠ some .root := by
    intro q
    simp only [pieces.inner]
    split
    · exact Option.some_ne_none _ |>.symm
    · split <;> simp
  have hall : ∀ qs : List (List Char), some Component.root ∉ (qs.map pieces.inner).map (·.2) := by
    intro qs h
    obtain ⟨x, hx, hroot⟩ := List.mem_map.1 h
    obtain ⟨q, -, rfl⟩ := List.mem_map.1 hx
    exact hinner q hroot
  cases habs : p.isAbsolute with
  | true =>
      obtain ⟨cs, hcs⟩ := p.isAbsolute_iff.1 habs
      rw [pieces_absolute hcs]
      exact hall _
  | false =>
      obtain ⟨q, qs, hq⟩ := List.exists_cons_of_ne_nil (Text.pieces_ne_nil '/' p.text.toList)
      rw [pieces_relative habs hq, List.map_cons, List.mem_cons, not_or]
      refine ⟨?_, hall qs⟩
      rw [first]
      split
      · simp
      · exact (hinner q).symm

theorem isAbsolute_iff_components {p : Path} :
    p.isAbsolute = true ↔ ∃ cs, p.components = .root :: cs := by
  constructor
  · intro h
    rw [components, h]
    exact ⟨_, rfl⟩
  · rintro ⟨cs, h⟩
    cases habs : p.isAbsolute with
    | true => rfl
    | false =>
        rw [components, habs, if_neg Bool.false_ne_true] at h
        have hroot : Component.root ∈ p.pieces.filterMap (·.2) := h ▸ List.mem_cons_self
        obtain ⟨q, hq, hsnd⟩ := List.mem_filterMap.1 hroot
        exact absurd (List.mem_map.2 ⟨q, hq, hsnd⟩) p.root_not_mem_pieces

/-- A path leads through names if its components are names below the root. -/
theorem leads_iff {p : Path} {ns : List String} :
    p.Leads ns ↔ p.components = .root :: ns.map .name := by
  refine ⟨Leads.components_eq, fun h => ?_⟩
  have habs := isAbsolute_iff_components.2 ⟨_, h⟩
  rw [components, habs, if_pos rfl] at h
  exact ⟨habs, (List.cons.inj h).2⟩

/-- There is a parent if a piece counts. -/
theorem isSome_parent? (p : Path) :
    p.parent?.isSome = true ↔ p.pieces.filterMap (·.2) ≠ [] := by
  rw [parent?]
  split
  · next h =>
      rw [← filterMap_dropEndWhile_idle, List.reverse_eq_nil_iff.1 h]
      exact iff_of_false Bool.false_ne_true fun h => h rfl
  · next last before h =>
      obtain ⟨hlast, rest, -, hsplit⟩ := Text.dropEndWhile_append_reverse h
      refine iff_of_true rfl fun hnone => ?_
      have hmem : last ∈ p.pieces := hsplit ▸ List.mem_append_right _ List.mem_cons_self
      have hidle : idle last = true :=
        Option.isNone_iff_eq_none.2 (List.filterMap_eq_nil_iff.1 hnone last hmem)
      rw [hidle] at hlast
      cases hlast

theorem Leads.parent?_nil {p : Path} (h : p.Leads []) : p.parent? = none := by
  rw [← Option.not_isSome_iff_eq_none, isSome_parent?, h.steps]
  exact fun hne => hne rfl

/-- The parent leads through the names but the last. -/
theorem Leads.parent?_concat {p : Path} {ns : List String} {n : String}
    (h : p.Leads (ns ++ [n])) : ∃ q, p.parent? = some q ∧ q.Leads ns := by
  have hsome : p.parent?.isSome = true := by
    rw [isSome_parent?, h.steps, List.map_append]
    exact List.append_ne_nil_of_right_ne_nil _ (List.cons_ne_nil _ _)
  obtain ⟨q, hq⟩ := Option.isSome_iff_exists.1 hsome
  refine ⟨q, hq, leads_iff.2 ?_⟩
  obtain ⟨c, hc⟩ := components_parent? hq
  rw [h.components_eq, List.map_append, ← List.cons_append] at hc
  exact (List.append_inj' hc rfl).1.symm

theorem Leads.fileName?_concat {p : Path} {ns : List String} {n : String}
    (h : p.Leads (ns ++ [n])) : p.fileName? = some n := by
  have hlast : p.components.getLast? = some (.name n) := by
    rw [h.components_eq, List.map_append, ← List.cons_append]
    exact List.getLast?_concat
  rw [fileName?, hlast]

theorem isAbsolute_parent? {p q : Path} (h : p.parent? = some q) :
    q.isAbsolute = p.isAbsolute := by
  obtain ⟨c, hc⟩ := components_parent? h
  rw [Bool.eq_iff_iff, isAbsolute_iff_components, isAbsolute_iff_components, hc]
  cases hq : q.components with
  | cons d ds => simp
  | nil =>
      -- a path with one component has no parent if that is the root
      refine iff_of_false (fun ⟨_, h⟩ => nomatch h) fun ⟨cs, hroot⟩ => ?_
      rw [hq] at hc
      have hp : p.Leads [] := leads_iff.2 (by rw [hc, (List.cons.inj hroot).1]; rfl)
      rw [hp.parent?_nil] at h
      exact nomatch h

/-- The paths around a path have the beginnings of its components. An absolute path
begins at the root, and so the empty path is not around it. -/
theorem exists_ancestor_iff {p : Path} {cs : List Component} :
    (∃ a ∈ p.ancestors, a.components = cs) ↔
      cs <+: p.components ∧ (p.isAbsolute = true → cs ≠ []) := by
  have hgo : ∀ (n : Nat) (p : Path), p.components.length < n →
      ((∃ a ∈ ancestors.go n p, a.components = cs) ↔
        cs <+: p.components ∧ (p.isAbsolute = true → cs ≠ [])) := by
    intro n
    induction n with
    | zero => exact fun p h => absurd h (Nat.not_lt_zero _)
    | succ n ih =>
        intro p h
        rw [ancestors.go]
        cases hp : p.parent? with
        | none =>
            have hsteps : p.pieces.filterMap (·.2) = [] := by
              have hparent := p.isSome_parent?
              rw [hp] at hparent
              exact Classical.not_not.1 fun hne => Bool.false_ne_true (hparent.2 hne)
            simp only [List.mem_singleton, exists_eq_left]
            rw [components, hsteps]
            cases p.isAbsolute <;> cases cs <;> simp [eq_comm]
        | some q =>
            obtain ⟨c, hc⟩ := components_parent? hp
            have hq := ih q (by rw [hc, List.length_append] at h; exact Nat.lt_of_succ_lt_succ h)
            simp only [List.mem_cons, exists_eq_or_imp, hq, isAbsolute_parent? hp, hc,
              List.prefix_concat_iff]
            constructor
            · rintro (rfl | ⟨hbelow, hroot⟩)
              · exact ⟨.inl rfl, fun _ => List.concat_ne_nil c q.components⟩
              · exact ⟨.inr hbelow, hroot⟩
            · rintro ⟨rfl | hbelow, hroot⟩
              · exact .inl rfl
              · exact .inr ⟨hbelow, hroot⟩
  exact hgo _ p (Nat.lt_succ_self _)

/-- A component that is a name is one step down. -/
theorem isName_of_mem_components {p : Path} {n : String} (h : .name n ∈ p.components) :
    IsName n := by
  have hinner : ∀ cs q, q ∈ Text.pieces '/' cs → (pieces.inner q).2 = some (.name n) →
      IsName n := by
    intro cs q hq hname
    obtain ⟨htext, hempty, hdot, hup⟩ := inner_snd_name hname
    refine ⟨hempty, hdot, hup, ?_⟩
    rw [← htext, inner_fst, String.toList_ofList]
    exact Text.sep_not_mem_pieces hq
  cases habs : p.isAbsolute with
  | true =>
      obtain ⟨cs, hcs⟩ := p.isAbsolute_iff.1 habs
      rw [components, habs, if_pos rfl, pieces_absolute hcs] at h
      rcases List.mem_cons.1 h with hroot | h
      · cases hroot
      · obtain ⟨x, hx, hname⟩ := List.mem_filterMap.1 h
        obtain ⟨q, hq, rfl⟩ := List.mem_map.1 hx
        exact hinner cs q hq hname
  | false =>
      obtain ⟨q, qs, hq⟩ := List.exists_cons_of_ne_nil (Text.pieces_ne_nil '/' p.text.toList)
      rw [components, habs, if_neg Bool.false_ne_true, pieces_relative habs hq] at h
      obtain ⟨x, hx, hname⟩ := List.mem_filterMap.1 h
      rcases List.mem_cons.1 hx with rfl | hx
      · rw [first] at hname
        split at hname
        · cases hname
        · exact hinner p.text.toList q (hq ▸ List.mem_cons_self) hname
      · obtain ⟨r, hr, rfl⟩ := List.mem_map.1 hx
        exact hinner p.text.toList r (hq ▸ List.mem_cons_of_mem q hr) hname

theorem Leads.isName {p : Path} {ns : List String} (h : p.Leads ns) : ∀ n ∈ ns, IsName n := by
  intro n hn
  refine isName_of_mem_components (p := p) ?_
  rw [h.components_eq]
  exact List.mem_cons_of_mem _ (List.mem_map_of_mem hn)

/-- All around a path through names are paths through names. -/
theorem Leads.ancestors {p : Path} {ns : List String} (h : p.Leads ns) :
    ∀ a ∈ p.ancestors, ∃ ms, ms <+: ns ∧ a.Leads ms := by
  have hgo : ∀ (n : Nat) (p : Path) (ns : List String), p.Leads ns →
      ∀ a ∈ ancestors.go n p, ∃ ms, ms <+: ns ∧ a.Leads ms := by
    intro n
    induction n with
    | zero => exact fun _ _ _ a ha => absurd ha List.not_mem_nil
    | succ n ih =>
        intro p ns h a ha
        rw [ancestors.go, List.mem_cons] at ha
        rcases ha with rfl | ha
        · exact ⟨ns, List.prefix_refl ns, h⟩
        · rcases List.eq_nil_or_concat ns with rfl | ⟨ms, m, rfl⟩
          · rw [h.parent?_nil] at ha
            exact absurd ha List.not_mem_nil
          · rw [List.concat_eq_append] at h
            obtain ⟨q, hq, hleads⟩ := h.parent?_concat
            rw [hq] at ha
            obtain ⟨ks, hks, hleads⟩ := ih q ms hleads a ha
            exact ⟨ks, by simpa using hks.trans (List.prefix_append ms [m]), hleads⟩
  exact hgo _ p ns h

end Path

namespace Session

/-- The place of a source file in the output tree. -/
theorem outputPath?_leads {s : Session} {src out ns : List String} (hsrc : s.srcDir.Leads src)
    (hout : s.outDir.Leads out) {p : Path} (hp : p.Leads (src ++ ns)) :
    ∃ q, s.outputPath? p = some q ∧ q.Leads (out ++ ns) ∧ (ns ≠ [] → q.EndsInName) := by
  obtain ⟨rel, hrel, habs, hsteps, hlast⟩ := Path.relativeTo?_leads hp hsrc
  obtain ⟨hjoined, before, hpieces, hbefore⟩ := Path.pieces_join hout.isAbsolute habs
  refine ⟨s.outDir.join rel.text, ?_, ⟨hjoined, ?_⟩, fun hne q hq => ?_⟩
  · rw [outputPath?, hrel]
    rfl
  · rw [hpieces, List.filterMap_append, hbefore, hsteps, hout.steps, List.map_append]
  · have hsome : ((Text.pieces '/' rel.text.toList).map Path.pieces.inner) ≠ [] :=
      fun h => Text.pieces_ne_nil _ _ (List.map_eq_nil_iff.1 h)
    rw [List.getLast?_eq_some_getLast hsome] at hlast
    rw [hpieces, List.getLast?_append, List.getLast?_eq_some_getLast hsome] at hq
    exact hlast hne q hq

/-- A path that is not below the root of the sources has no place in the output
tree. -/
theorem outputPath?_eq_none {s : Session} {p : Path} (h : p.startsWith s.srcDir = false) :
    s.outputPath? p = none := by
  rw [outputPath?, Path.relativeTo?, if_neg (Bool.eq_false_iff.1 h)]
  rfl

end Session

end SiteMacros
