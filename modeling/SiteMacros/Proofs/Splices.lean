import SiteMacros.Proofs.Emissions
import SiteMacros.Proofs.FoundCalls

/-!
# Splices

The code of a module is its text with edits carried out, and the edits come from three
places: from calls, which are replaced, from imports of macros, which are removed up to
the end of their lines, and from the header, which is put in below the last import. An
edit that began before the one ahead of it ended, or between the bytes of a character,
could not be carried out at all. None does (`expandModule_splices`): the edits are parts
of the text between cuts, and in the order in which they are carried out each is behind
the one before. So the code is the text with these parts replaced and all else copied,
once and in order (`Edit.Splices`).

Calls and imports are apart as the parser has placed them. What has to be shown is that
they stay apart when the imports are widened, and that the header, which is put in where
a widened import ends, is in none of them: all that begins with a token behind an import
begins behind its line (`Span.StandsIn.lineEnd_le`). A call may begin where the header
goes; then the header comes first, since it takes nothing away.
-/

namespace SiteMacros

namespace Edit

/-- Are the parts that the edits replace apart? -/
def Apart (a b : Edit) : Prop :=
  a.stop ≤ b.start ∨ b.stop ≤ a.start

/-- The edit replaces a part of a text between cuts. -/
structure StandsIn (text : List Char) (e : Edit) : Prop where
  start : Text.IsCut text e.start
  stop : Text.IsCut text e.stop
  ordered : e.start ≤ e.stop

/-- The text `out` is the text `cs`, which begins at byte `at_`, with what the edits
replace replaced: before, between and behind the edits it is copied. -/
inductive Splices : (at_ : Nat) → List Edit → (cs out : List Char) → Prop
  | nil (at_ : Nat) (cs : List Char) : Splices at_ [] cs cs
  | cons {at_ : Nat} {e : Edit} {es : List Edit} {kept removed cs out : List Char}
      (start : at_ + Text.bytes kept = e.start) (stop : e.start + Text.bytes removed = e.stop)
      (rest : Splices e.stop es cs out) :
      Splices at_ (e :: es) (kept ++ (removed ++ cs)) (kept ++ e.text.toList ++ out)

theorem le_total (a b : Edit) : le a b = true ∨ le b a = true := by
  simp only [le, Bool.or_eq_true, Bool.and_eq_true, decide_eq_true_eq, beq_iff_eq]
  omega

theorem le_trans (a b c : Edit) (hab : le a b = true) (hbc : le b c = true) : le a c = true := by
  simp only [le, Bool.or_eq_true, Bool.and_eq_true, decide_eq_true_eq, beq_iff_eq] at hab hbc ⊢
  omega

/-- Edits that are apart are each behind the one before when they are in order. -/
theorem sorted_apart {es : List Edit} (hordered : ∀ e ∈ es, e.start ≤ e.stop)
    (hapart : es.Pairwise Apart) : (sorted le es).Pairwise fun a b => a.stop ≤ b.start := by
  have hperm := sorted_perm le es
  have hsorted := sorted_pairwise le_total le_trans es
  have hapart := (hperm.pairwise_iff fun h => Or.symm h).2 hapart
  refine List.Pairwise.imp_of_mem (fun {a b} ha hb h => ?_) (hsorted.and hapart)
  obtain ⟨hle, hapart⟩ := h
  have hbordered := hordered b (hperm.mem_iff.1 hb)
  simp only [le, Bool.or_eq_true, Bool.and_eq_true, decide_eq_true_eq, beq_iff_eq] at hle
  rcases hapart with hbehind | hbehind
  · exact hbehind
  · omega

/-- An edit that takes nothing away comes first of those at its place. -/
theorem sorted_insertion {es : List Edit} {e : Edit} (hpoint : e.stop = e.start)
    (hothers : ∀ f ∈ es, f.start < f.stop)
    (hbehind : (sorted le (es ++ [e])).Pairwise fun a b => a.stop ≤ b.start) :
    ∃ before after, sorted le (es ++ [e]) = before ++ e :: after ∧
      (∀ f ∈ before, f.start < e.start) ∧ ∀ f ∈ after, e.start ≤ f.start := by
  have hperm := sorted_perm le (es ++ [e])
  obtain ⟨before, after, hsplit⟩ := List.append_of_mem
    (hperm.mem_iff.2 (List.mem_append_right es List.mem_cons_self))
  rw [hsplit] at hperm hbehind
  have hrest : (before ++ after).Perm es := by
    have hfront := List.perm_middle.symm.trans (hperm.trans (List.perm_append_singleton e es))
    exact (List.perm_cons e).1 hfront
  obtain ⟨-, hlater, hearlier⟩ := List.pairwise_append.1 hbehind
  refine ⟨before, after, hsplit, fun f hf => ?_, fun f hf => ?_⟩
  · have hne := hothers f (hrest.mem_iff.1 (List.mem_append_left after hf))
    exact Nat.lt_of_lt_of_le hne (hearlier f hf e List.mem_cons_self)
  · rw [← hpoint]
    exact (List.pairwise_cons.1 hlater).1 f hf

/-- Edits between cuts, each behind the one before, can be carried out. -/
theorem splices_applySorted {es : List Edit} (hbehind : es.Pairwise fun a b => a.stop ≤ b.start)
    {done cs : List Char} (hstands : ∀ e ∈ es, e.StandsIn (done ++ cs))
    (hfrom : ∀ e ∈ es, Text.bytes done ≤ e.start) :
    Splices (Text.bytes done) es cs (applySorted (Text.bytes done) es cs) := by
  induction es generalizing done cs with
  | nil => exact .nil _ _
  | cons e es ih =>
      obtain ⟨hnext, hbehind⟩ := List.pairwise_cons.1 hbehind
      obtain ⟨hstart, hstop, hordered⟩ := hstands e List.mem_cons_self
      obtain ⟨kept, behind, rfl, hkept⟩ := hstart.behind (hfrom e List.mem_cons_self)
      rw [← List.append_assoc] at hstop
      obtain ⟨removed, rest, rfl, hremoved⟩ := hstop.behind (by rw [Text.bytes_append]; omega)
      rw [Text.bytes_append, hkept] at hremoved
      have hdone : Text.bytes (done ++ (kept ++ removed)) = e.stop := by
        rw [Text.bytes_append, Text.bytes_append, ← Nat.add_assoc, hkept, hremoved]
      have htext : done ++ (kept ++ removed) ++ rest = done ++ (kept ++ (removed ++ rest)) := by
        simp only [List.append_assoc]
      have hrest := @ih hbehind (done ++ (kept ++ removed)) rest
        (fun f hf => htext ▸ hstands f (List.mem_cons_of_mem e hf))
        (fun f hf => Nat.le_trans (Nat.le_of_eq hdone) (hnext f hf))
      rw [hdone] at hrest
      have htake : takeBytes (e.start - Text.bytes done) (kept ++ (removed ++ rest)) = kept := by
        rw [← hkept, Nat.add_sub_cancel_left, Text.takeBytes_append]
      have hdrop : dropBytes (e.stop - Text.bytes done) (kept ++ (removed ++ rest)) = rest := by
        rw [← hremoved, ← hkept, Nat.add_assoc, Nat.add_sub_cancel_left, ← Text.bytes_append,
          ← List.append_assoc, Text.dropBytes_append]
      rw [applySorted, htake, hdrop]
      exact .cons hkept hremoved hrest

/-- What is put in for an edit is in the text that comes out. -/
theorem Splices.text_infix {at_ : Nat} {es : List Edit} {cs out : List Char}
    (h : Splices at_ es cs out) {e : Edit} (he : e ∈ es) : e.text.toList <:+: out := by
  induction h with
  | nil => exact nomatch he
  | cons _ _ _ ih =>
      rcases List.mem_cons.1 he with rfl | he
      · exact List.infix_append _ _ _
      · exact (ih he).trans (List.suffix_append _ _).isInfix

/-- What no edit touches is in the text that comes out. -/
theorem Splices.kept_infix {at_ : Nat} {es : List Edit} {cs out : List Char}
    (h : Splices at_ es cs out) {before piece after : List Char}
    (hcs : cs = before ++ (piece ++ after))
    (hapart : ∀ e ∈ es, e.stop ≤ at_ + Text.bytes before ∨
      at_ + Text.bytes before + Text.bytes piece ≤ e.start) : piece <:+: out := by
  induction h generalizing before with
  | nil =>
      rw [hcs]
      exact (List.prefix_append _ _).isInfix.trans (List.suffix_append _ _).isInfix
  | @cons at_ e es kept removed cs out hstart hstop _ ih =>
      rcases hapart e List.mem_cons_self with hbehind | hahead
      · rw [← List.append_assoc] at hcs
        obtain ⟨between, rfl, hrest⟩ := Text.exists_append_of_bytes_le hcs
          (by rw [Text.bytes_append]; omega)
        have hplace : at_ + Text.bytes (kept ++ removed ++ between) =
            e.stop + Text.bytes between := by
          rw [Text.bytes_append, Text.bytes_append]
          omega
        rw [hplace] at hapart
        have hpiece := ih hrest fun f hf => hapart f (List.mem_cons_of_mem e hf)
        exact hpiece.trans (List.suffix_append _ _).isInfix
      · rw [← List.append_assoc before] at hcs
        obtain ⟨between, rfl, -⟩ := Text.exists_append_of_bytes_le hcs.symm
          (by rw [Text.bytes_append]; omega)
        have hpiece : piece <:+: before ++ piece ++ between := List.infix_append _ _ _
        exact (hpiece.trans (List.prefix_append _ _).isInfix).trans
          (List.prefix_append _ _).isInfix

end Edit

namespace Expansion

open Script

variable {s : Surroundings} {text : String}

/-- The edits that the code of a module is made by. -/
def moduleEdits (text : String) (ds macroImports : List ImportDeclaration)
    (calls : List (MacroCall × Expression)) (header : String) : List Edit :=
  calls.map (fun c => Edit.guarded (replacement text c.1 c.2, isGuarded text c.1 c.2)) ++
    macroImports.map (removal text) ++ insertion text ds header

theorem assembled_eq (text : String) (ds macroImports : List ImportDeclaration)
    (calls : List (MacroCall × Expression)) (header : String) :
    assembled text ds macroImports calls header =
      Edit.applyAll text (moduleEdits text ds macroImports calls header) :=
  rfl

/-- A module that is expanded has a tree, and calls that are found in it. -/
theorem analyze_eq_ok {c : Configuration} {file : Path} {tree : Node} {calls : List MacroCall}
    (h : analyze c file text = .ok (some (tree, calls))) :
    parse (.ofPath file) text = .ok tree ∧ ∃ bindings,
      c.macroSources.bindings (imports tree) = .ok bindings ∧
      findCalls text bindings tree = .ok calls := by
  rw [analyze] at h
  split at h
  · split at h
    · exact nomatch h
    · exact nomatch h
  · next tree' hparse =>
      obtain ⟨bindings, hbindings, h⟩ := exists_of_bind_eq_ok h
      split at h
      · obtain ⟨calls', hfound, h⟩ := exists_of_bind_eq_ok h
        cases h
        exact ⟨hparse, bindings, hbindings, hfound⟩
      · exact nomatch h

/-! ## The place of the header -/

theorem foldl_max_spec (ns : List Nat) (n : Nat) :
    n ≤ ns.foldl max n ∧ (∀ k ∈ ns, k ≤ ns.foldl max n) ∧
      (ns.foldl max n = n ∨ ns.foldl max n ∈ ns) := by
  induction ns generalizing n with
  | nil => exact ⟨Nat.le_refl n, List.forall_mem_nil _, .inl rfl⟩
  | cons k ns ih =>
      obtain ⟨hfrom, hall, hone⟩ := ih (max n k)
      rw [List.foldl_cons]
      refine ⟨Nat.le_trans (Nat.le_max_left n k) hfrom, fun j hj => ?_, ?_⟩
      · rcases List.mem_cons.1 hj with rfl | hj
        · exact Nat.le_trans (Nat.le_max_right n j) hfrom
        · exact hall j hj
      · rcases hone with hone | hone
        · rcases Nat.le_total n k with hle | hle
          · exact .inr (List.mem_cons.2 (.inl (hone.trans (Nat.max_eq_right hle))))
          · exact .inl (hone.trans (Nat.max_eq_left hle))
        · exact .inr (List.mem_cons_of_mem k hone)

/-- The header goes behind the lines of all imports, and right behind one of them if
there is one. -/
theorem insertion_place {ds : List ImportDeclaration} {header : String} {e : Edit}
    (h : e ∈ insertion text ds header) :
    insertion text ds header = [e] ∧ e.stop = e.start ∧
      (∀ d ∈ ds, Text.lineEnd text d.span.stop ≤ e.start) ∧
      (e.start = 0 ∨ ∃ d ∈ ds, e.start = Text.lineEnd text d.span.stop) := by
  rw [insertion] at h ⊢
  split at h
  · exact absurd h List.not_mem_nil
  · next hheader =>
      rw [if_neg hheader]
      cases List.mem_singleton.1 h
      obtain ⟨-, hall, hone⟩ := foldl_max_spec (ds.map fun d => Text.lineEnd text d.span.stop) 0
      refine ⟨rfl, rfl, fun d hd => hall _ (List.mem_map_of_mem hd), hone.imp_right fun hmem => ?_⟩
      obtain ⟨d, hd, hplace⟩ := List.mem_map.1 hmem
      exact ⟨d, hd, hplace.symm⟩

/-! ## Edits of a module -/

section

variable {tree : Node} {bindings : Bindings} {calls : List MacroCall} {es : List Expression}
  {header : String} {isMacro : ImportDeclaration → Bool}
  (hplaced : tree.Placed text) (hfound : findCalls text bindings tree = .ok calls)

include hplaced

theorem removal_standsIn {d : ImportDeclaration} (hd : d ∈ imports tree) :
    (removal text d).StandsIn text.toList ∧ (removal text d).start < (removal text d).stop := by
  obtain ⟨hstart, hstop, hne, -⟩ := hplaced.imports d hd
  have hfilled : d.span.start < Text.lineEnd text d.span.stop :=
    Nat.lt_of_lt_of_le hne (Text.le_lineEnd text d.span.stop)
  exact ⟨⟨hstart, Text.isCut_lineEnd hstop, Nat.le_of_lt hfilled⟩, hfilled⟩

theorem insertion_standsIn {e : Edit} (h : e ∈ insertion text (imports tree) header) :
    e.StandsIn text.toList := by
  obtain ⟨-, hpoint, -, hplace⟩ := insertion_place h
  have hcut : Text.IsCut text.toList e.start := by
    rcases hplace with hzero | ⟨d, hd, hline⟩
    · rw [hzero]
      exact Text.isCut_iff.2 ⟨[], _, rfl, rfl⟩
    · rw [hline]
      exact Text.isCut_lineEnd (hplaced.imports d hd).stop
  exact ⟨hcut, hpoint.symm ▸ hcut, Nat.le_of_eq hpoint.symm⟩

/-- Imports stay apart when they are removed with the ends of their lines. -/
theorem removals_apart : ((imports tree).map (removal text)).Pairwise Edit.Apart := by
  refine List.pairwise_map.2 (hplaced.importsApart.imp_of_mem fun {d e} hd he h => ?_)
  refine h.imp (fun hle => ?_) fun hle => ?_
  · exact (hplaced.imports e he).lineEnd_le (hplaced.imports d hd).stop hle
  · exact (hplaced.imports d hd).lineEnd_le (hplaced.imports e he).stop hle

theorem removal_apart_span {d : ImportDeclaration} (hd : d ∈ imports tree) {span : Span}
    (hspan : span.StandsIn text) (hapart : d.span.Apart span) :
    Text.lineEnd text d.span.stop ≤ span.start ∨ span.stop ≤ d.span.start :=
  hapart.imp_left fun hle => hspan.lineEnd_le (hplaced.imports d hd).stop hle

/-- What is apart from the imports is apart from the place of the header. -/
theorem insertion_apart_span {e : Edit} (he : e ∈ insertion text (imports tree) header)
    {span : Span} (hspan : span.StandsIn text) (hapart : ∀ d ∈ imports tree, d.span.Apart span) :
    e.stop ≤ span.start ∨ span.stop ≤ e.start := by
  obtain ⟨-, hpoint, -, hplace⟩ := insertion_place he
  rcases hplace with hzero | ⟨d, hd, hline⟩
  · exact .inl (by rw [hpoint, hzero]; exact Nat.zero_le _)
  · have hend := Text.le_lineEnd text d.span.stop
    have hne := (hplaced.imports d hd).nonempty
    refine (removal_apart_span hplaced hd hspan (hapart d hd)).imp (fun hle => ?_) fun hle => ?_
    · rw [hpoint, hline]
      exact hle
    · omega

/-- What is apart from the imports and the calls is apart from all edits. -/
theorem moduleEdits_apart_span {span : Span} (hspan : span.StandsIn text)
    (himports : ∀ d ∈ imports tree, d.span.Apart span)
    (hcalls : ∀ c ∈ calls.zip es, c.1.span.Apart span) {e : Edit}
    (he : e ∈ moduleEdits text (imports tree) ((imports tree).filter isMacro) (calls.zip es)
      header) : e.stop ≤ span.start ∨ span.stop ≤ e.start := by
  rw [moduleEdits, List.mem_append, List.mem_append] at he
  rcases he with (he | he) | he
  · obtain ⟨c, hc, rfl⟩ := List.mem_map.1 he
    exact hcalls c hc
  · obtain ⟨d, hd, rfl⟩ := List.mem_map.1 he
    have hd := (List.mem_filter.1 hd).1
    exact removal_apart_span hplaced hd hspan (himports d hd)
  · exact insertion_apart_span hplaced he hspan himports

include hfound

/-- Calls and removed imports are parts of the text that are not empty. -/
theorem replaced_standsIn {e : Edit}
    (h : e ∈ (calls.zip es).map (fun c =>
        Edit.guarded (replacement text c.1 c.2, isGuarded text c.1 c.2)) ++
      ((imports tree).filter isMacro).map (removal text)) :
    e.StandsIn text.toList ∧ e.start < e.stop := by
  rcases List.mem_append.1 h with h | h
  · obtain ⟨c, hc, rfl⟩ := List.mem_map.1 h
    have hspan := hplaced.calls _ (mem_callSpans_of_found hfound (List.of_mem_zip hc).1)
    exact ⟨⟨hspan.start, hspan.stop, Nat.le_of_lt hspan.nonempty⟩, hspan.nonempty⟩
  · obtain ⟨d, hd, rfl⟩ := List.mem_map.1 h
    exact removal_standsIn hplaced (List.mem_filter.1 hd).1

theorem edits_standsIn {e : Edit}
    (h : e ∈ moduleEdits text (imports tree) ((imports tree).filter isMacro) (calls.zip es)
      header) : e.StandsIn text.toList := by
  rcases List.mem_append.1 h with h | h
  · exact (replaced_standsIn hplaced hfound h).1
  · exact insertion_standsIn hplaced h

/-- No two edits of a module replace a common part of its text. -/
theorem edits_apart (hlength : es.length = calls.length) :
    (moduleEdits text (imports tree) ((imports tree).filter isMacro) (calls.zip es)
      header).Pairwise Edit.Apart := by
  have hcallSpan : ∀ c ∈ calls.zip es, c.1.span ∈ tree.callSpans := fun c hc =>
    mem_callSpans_of_found hfound (List.of_mem_zip hc).1
  rw [moduleEdits, List.pairwise_append, List.pairwise_append]
  refine ⟨⟨?replacements, ?removals, ?replaced⟩, ?one, ?place⟩
  case replacements =>
    have hfirst : (calls.zip es).map Prod.fst = calls :=
      List.map_fst_zip (Nat.le_of_eq hlength.symm)
    have hapart := hplaced.found_apart hfound
    rw [← hfirst, List.pairwise_map] at hapart
    exact List.pairwise_map.2 hapart
  case removals =>
    exact (removals_apart hplaced).sublist (List.filter_sublist.map _)
  case replaced =>
    intro a ha b hb
    obtain ⟨c, hc, rfl⟩ := List.mem_map.1 ha
    obtain ⟨d, hd, rfl⟩ := List.mem_map.1 hb
    have hd := (List.mem_filter.1 hd).1
    have hapart := hplaced.callsApart d hd _ (hcallSpan c hc)
    exact (removal_apart_span hplaced hd (hplaced.calls _ (hcallSpan c hc)) hapart).symm
  case one =>
    cases hinsertion : insertion text (imports tree) header with
    | nil => exact .nil
    | cons e rest =>
        have hmem : e ∈ insertion text (imports tree) header := hinsertion ▸ List.mem_cons_self
        rw [← hinsertion, (insertion_place hmem).1]
        exact List.pairwise_singleton _ e
  case place =>
    intro a ha e he
    rcases List.mem_append.1 ha with ha | ha
    · obtain ⟨c, hc, rfl⟩ := List.mem_map.1 ha
      have hspan := hcallSpan c hc
      have hapart := insertion_apart_span hplaced he (hplaced.calls _ hspan) fun d hd =>
        hplaced.callsApart d hd _ hspan
      exact hapart.symm
    · obtain ⟨d, hd, rfl⟩ := List.mem_map.1 ha
      exact .inl ((insertion_place he).2.2.1 d (List.mem_filter.1 hd).1)

/-- In the order in which they are carried out, each edit of a module is behind the one
before. -/
theorem edits_behind (hlength : es.length = calls.length) :
    (sorted Edit.le (moduleEdits text (imports tree) ((imports tree).filter isMacro)
      (calls.zip es) header)).Pairwise fun a b => a.stop ≤ b.start :=
  Edit.sorted_apart (fun _ he => (edits_standsIn hplaced hfound he).ordered)
    (edits_apart hplaced hfound hlength)

/-- The edits of a module can be carried out. -/
theorem splices_assembled (hlength : es.length = calls.length) :
    Edit.Splices 0
      (sorted Edit.le (moduleEdits text (imports tree) ((imports tree).filter isMacro)
        (calls.zip es) header)) text.toList
      (assembled text (imports tree) ((imports tree).filter isMacro) (calls.zip es)
        header).toList := by
  have hbehind := @edits_behind text tree bindings calls es header isMacro hplaced hfound hlength
  rw [assembled_eq, Edit.applyAll, String.toList_ofList]
  refine @Edit.splices_applySorted _ hbehind [] _ (fun e he => ?_) fun _ _ => Nat.zero_le _
  exact edits_standsIn hplaced hfound ((sorted_perm _ _).mem_iff.1 he)

end

/-- Emissions come to as many results. -/
theorem emitAll_length {c : Configuration} {ems : List Emission}
    {results : List (List Expression × Expression)} {scope scope' : ImportScope}
    (h : (ems.mapM (Emission.emit c)).run scope = (results, scope')) :
    ems.length = results.length :=
  ((emitAll_spelled c ems).of_run h).2.length_eq

/-- The code of an expanded module is its text with edits carried out, one in the place of
each call, one that removes each import of macros with the end of its line, and one that
puts in the header if there is one. The edits replace parts of the text between cuts, and
in the order in which they are carried out each is behind the one before; all else is
copied. The header goes behind the lines of all imports and ahead of whatever is replaced
from its place on. -/
theorem expandModule_splices {r r' : Registry} {m : ExpandedModule}
    (h : expandModule s r text = (r', .ok (some m)))
    (hplaced : ∀ tree, parse (.ofPath s.file) text = .ok tree → tree.Placed text) :
    ∃ tree calls, ∃ es : List Expression, ∃ header,
      analyze s.configuration s.file text = .ok (some (tree, calls)) ∧
      es.length = calls.length ∧
      let ds := imports tree
      let macroImports := ds.filter s.configuration.macroSources.isMacroImport
      let edits := moduleEdits text ds macroImports (calls.zip es) header
      m.code = Edit.applyAll text edits ∧
      (∀ e ∈ edits, e.StandsIn text.toList) ∧
      (sorted Edit.le edits).Pairwise (fun a b => a.stop ≤ b.start) ∧
      Edit.Splices 0 (sorted Edit.le edits) text.toList m.code.toList ∧
      ∀ e ∈ insertion text ds header, (∀ d ∈ ds, Text.lineEnd text d.span.stop ≤ e.start) ∧
        ∃ before after, sorted Edit.le edits = before ++ e :: after ∧
          (∀ f ∈ before, f.start < e.start) ∧ ∀ f ∈ after, e.start ≤ f.start := by
  obtain ⟨tree, calls, ems, results, x, hcalls, hmacros, hrun, -, hcode⟩ :=
    expandModule_emissions h
  obtain ⟨hparse, bindings, -, hfound⟩ := analyze_eq_ok hcalls
  have hplaced := hplaced tree hparse
  have hlength : (results.map (·.2)).length = calls.length := by
    rw [List.length_map, ← emitAll_length hrun, ← List.length_map (·.subject.macroName), hmacros,
      List.length_map]
  refine ⟨tree, calls, results.map (·.2), x.header, hcalls, hlength, ?_⟩
  dsimp only at hcode ⊢
  generalize results.map (·.2) = es at hlength hcode ⊢
  have hbehind := @edits_behind text tree bindings calls es x.header
    s.configuration.macroSources.isMacroImport hplaced hfound hlength
  refine ⟨hcode, fun _ he => edits_standsIn hplaced hfound he, hbehind, ?_, fun e he =>
    ⟨(insertion_place he).2.2.1, ?_⟩⟩
  · rw [hcode]
    exact splices_assembled hplaced hfound hlength
  · obtain ⟨hone, hpoint, -, -⟩ := insertion_place he
    rw [moduleEdits, hone] at hbehind ⊢
    exact Edit.sorted_insertion hpoint (fun f hf => (replaced_standsIn hplaced hfound hf).2) hbehind

theorem exists_expanded {r : Registry}
    (h : (expandModule s r text).2.toOption.join.isSome = true) :
    ∃ r' m, expandModule s r text = (r', .ok (some m)) := by
  rcases hrun : expandModule s r text with ⟨r', e | _ | m⟩
  · rw [hrun] at h
    exact nomatch h
  · rw [hrun] at h
    exact nomatch h
  · exact ⟨r', m, rfl⟩

/-- What has been checked of the tree of a text holds of it. -/
theorem of_parsed {P : Node → Prop} [DecidablePred P] {language : Language} {tree : Node}
    (h : (parse language text).toOption.all (fun tree => decide (P tree)) = true)
    (hparse : parse language text = .ok tree) : P tree := by
  rw [hparse] at h
  exact of_decide_eq_true h

/-- A call at the place where the header goes. -/
theorem expandModule_splices_registration :
    let text := "import\x7bloadI18n as t\x7dfrom\"i18n.macro\" \nt(\"./*.yaml\")"
    ∃ r m edits, expandModule aloneInProject {} text = (r, .ok (some m)) ∧
      Text.lineEnd text 37 = 39 ∧ edits.Pairwise (fun a b => a.stop ≤ b.start) ∧
      Edit.Splices 0 edits text.toList m.code.toList := by
  intro text
  have hplaced : (parse (.ofPath aloneInProject.file) text).toOption.all
      (fun tree => decide (tree.Placed text)) = true := by
    decide +kernel
  have hexpanded : (expandModule aloneInProject {} text).2.toOption.join.isSome = true := by
    decide +kernel
  obtain ⟨r, m, hrun⟩ := exists_expanded hexpanded
  obtain ⟨tree, calls, es, header, -, -, -, -, hbehind, hsplices, -⟩ :=
    expandModule_splices hrun fun _ => of_parsed hplaced
  exact ⟨r, m, _, hrun, by decide +kernel, hbehind, hsplices⟩

end Expansion

end SiteMacros
