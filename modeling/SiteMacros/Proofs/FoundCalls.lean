import SiteMacros.Proofs.Cuts

/-!
# Calls that are found

A visit of a tree comes to a list of calls of macros, or to the first place where a
macro is not called or is called within another call. If it comes to calls, they are all
the calls of names that are bound to macros, in the order of the visit, none of them
within an earlier one, and wherever such a name is referred to it is as the callee of one
of them (`findCalls_eq_ok`).

The visit does not look at the tree again, only at spans, and what it means for a call to
be within another is a matter of the spans. What is relied on is `Node.Placed`: spans are
parts of the text that begin with a token, a call within a construct has its span there,
and other calls and imports are apart. So calls that are found are apart from each other
(`Placed.found_apart`).
-/

namespace SiteMacros.Script

/-! ## Spans -/

/-- Do the spans have no part of the text in common? -/
def Span.Apart (a b : Span) : Prop :=
  a.stop ≤ b.start ∨ b.stop ≤ a.start

instance (a b : Span) : Decidable (a.Apart b) :=
  inferInstanceAs (Decidable (_ ∨ _))

theorem Span.Apart.symm {a b : Span} (h : a.Apart b) : b.Apart a :=
  Or.symm h

theorem Span.covers_iff {outer inner : Span} :
    outer.covers inner = true ↔ outer.start ≤ inner.start ∧ inner.stop ≤ outer.stop := by
  rw [Span.covers, Bool.and_eq_true, decide_eq_true_eq, decide_eq_true_eq]

/-- Is the span a part of the text that begins with a token? -/
structure Span.StandsIn (text : String) (s : Span) : Prop where
  start : Text.IsCut text.toList s.start
  stop : Text.IsCut text.toList s.stop
  nonempty : s.start < s.stop
  token : (Edit.dropBytes s.start text.toList).head?.any (!Text.isGap ·) = true

instance (text : String) (s : Span) : Decidable (s.StandsIn text) :=
  decidable_of_iff (Text.IsCut text.toList s.start ∧ Text.IsCut text.toList s.stop ∧
      s.start < s.stop ∧ (Edit.dropBytes s.start text.toList).head?.any (!Text.isGap ·) = true)
    ⟨fun ⟨hstart, hstop, hne, htoken⟩ => ⟨hstart, hstop, hne, htoken⟩,
      fun ⟨hstart, hstop, hne, htoken⟩ => ⟨hstart, hstop, hne, htoken⟩⟩

/-- A token behind a statement is behind the end of the statement's line. -/
theorem Span.StandsIn.lineEnd_le {text : String} {s : Span} (h : s.StandsIn text) {n : Nat}
    (hn : Text.IsCut text.toList n) (hle : n ≤ s.start) : Text.lineEnd text n ≤ s.start := by
  obtain ⟨c, hc, hgap⟩ := (Option.any_eq_true _ _).1 h.token
  obtain ⟨cs, hfirst⟩ := List.head?_eq_some_iff.1 hc
  exact Text.lineEnd_le hn h.start hle hfirst (by simpa using hgap)

/-- The text of a span that is between cuts is what the text has there. -/
theorem Span.StandsIn.textIn_split {text : String} {s : Span} (h : s.StandsIn text) :
    ∃ before after, text.toList = before ++ ((s.textIn text).toList ++ after) ∧
      Text.bytes before = s.start ∧ s.start + Text.bytes (s.textIn text).toList = s.stop := by
  obtain ⟨before, behind, htext, hstart⟩ := Text.isCut_iff.1 h.start
  have hstop := h.stop
  rw [htext] at hstop
  obtain ⟨piece, after, rfl, hpiece⟩ := hstop.behind (hstart ▸ Nat.le_of_lt h.nonempty)
  have htextIn : (s.textIn text).toList = piece := by
    have hlength : s.stop - s.start = Text.bytes piece := by omega
    rw [Span.textIn, String.toList_ofList, htext, ← hstart, Text.dropBytes_append, hstart, hlength,
      Text.takeBytes_append]
  rw [htextIn]
  exact ⟨before, after, htext, hstart, hstart ▸ hpiece⟩

/-- The text of a span within another is in the text of that one. -/
theorem Span.StandsIn.textIn_infix {text : String} {outer inner : Span}
    (houter : outer.StandsIn text) (hinner : inner.StandsIn text)
    (hcovers : outer.covers inner = true) :
    (inner.textIn text).toList <:+: (outer.textIn text).toList := by
  obtain ⟨before, after, htext, hstart, hstop⟩ := houter.textIn_split
  obtain ⟨before', after', htext', hstart', hstop'⟩ := hinner.textIn_split
  rw [Span.covers_iff] at hcovers
  obtain ⟨front, rfl, hrest⟩ := Text.exists_append_of_bytes_le (htext.symm.trans htext') (by omega)
  rw [Text.bytes_append] at hstart'
  rw [← List.append_assoc] at hrest
  obtain ⟨back, hpiece, -⟩ := Text.exists_append_of_bytes_le hrest.symm
    (by rw [Text.bytes_append]; omega)
  rw [hpiece]
  exact List.infix_append _ _ _

/-! ## Sites -/

/-- The span of a site that is a call. -/
def Site.callSpan? : Site → Option Span
  | .call span _ _ _ => some span
  | .reference _ _ | .binding _ _ => none

/-- The call that a site is, if it is that of a macro. -/
def Site.macroCall? (text : String) (bindings : Bindings) : Site → Option MacroCall
  | .call span _ name args =>
      (bindings.lookup name).map fun m => ⟨m, span, args.map (MacroCall.argument text)⟩
  | .reference _ _ | .binding _ _ => none

/-- Where the callee of a call of a macro starts. -/
def Site.calleeStart? (bindings : Bindings) : Site → Option Nat
  | .call _ callee name _ => (bindings.lookup name).map fun _ => callee.start
  | .reference _ _ | .binding _ _ => none

/-- What a visit of sites adds to what has been found. -/
structure Finding.After (text : String) (bindings : Bindings) (f : Finding) (sites : List Site)
    (g : Finding) : Prop where
  calls : g.calls = f.calls ++ sites.filterMap (·.macroCall? text bindings)
  callees : g.callees = (sites.filterMap (·.calleeStart? bindings)).reverse ++ f.callees
  distinct : f.calls.Pairwise (fun a b => a.span.covers b.span = false) →
    g.calls.Pairwise fun a b => a.span.covers b.span = false
  called : ∀ span name, .reference span name ∈ sites → (bindings.lookup name).isSome = true →
    span.start ∈ g.callees

section

variable {text : String} {bindings : Bindings}

theorem Finding.visit_after {f g : Finding} {site : Site}
    (h : f.visit text bindings site = .ok g) : f.After text bindings [site] g := by
  cases site with
  | binding span name =>
      cases h
      exact ⟨(List.append_nil _).symm, rfl, id, fun _ _ hmem => by simp at hmem⟩
  | reference span name =>
      rw [Finding.visit] at h
      split at h
      · next m hm =>
          split at h
          · next hcallee =>
              cases h
              refine ⟨(List.append_nil _).symm, rfl, id, fun span' name' hmem _ => ?_⟩
              cases List.mem_singleton.1 hmem
              exact List.contains_iff_mem.1 hcallee
          · exact nomatch h
      · next hnone =>
          cases h
          refine ⟨(List.append_nil _).symm, rfl, id, fun span' name' hmem hbound => ?_⟩
          cases List.mem_singleton.1 hmem
          rw [hnone] at hbound
          exact nomatch hbound
  | call span callee name args =>
      have hnoReference : ∀ span' name',
          Site.reference span' name' ∉ [.call span callee name args] :=
        fun _ _ hmem => by simp at hmem
      rw [Finding.visit] at h
      split at h
      · next m hm =>
          split at h
          · exact nomatch h
          · next hfree =>
              cases h
              refine ⟨?_, ?_, fun hdistinct => ?_, fun _ _ hmem => absurd hmem (hnoReference _ _)⟩
              · simp [Site.macroCall?, hm]
              · simp [Site.calleeStart?, hm]
              · refine List.pairwise_append.2 ⟨hdistinct, List.pairwise_singleton _ _, ?_⟩
                intro a ha b hb
                rw [List.mem_singleton.1 hb]
                exact Bool.eq_false_iff.2 (List.find?_eq_none.1 hfree a ha)
      · next hnone =>
          cases h
          refine ⟨?_, ?_, id, fun _ _ hmem => absurd hmem (hnoReference _ _)⟩
          · simp [Site.macroCall?, hnone]
          · simp [Site.calleeStart?, hnone]

theorem Finding.foldlM_after {sites : List Site} {f g : Finding}
    (h : sites.foldlM (Finding.visit text bindings) f = .ok g) : f.After text bindings sites g := by
  induction sites generalizing f with
  | nil =>
      cases h
      exact ⟨(List.append_nil _).symm, rfl, id, fun _ _ hmem => absurd hmem List.not_mem_nil⟩
  | cons site sites ih =>
      rw [List.foldlM_cons] at h
      cases hvisit : f.visit text bindings site with
      | error e =>
          rw [hvisit] at h
          exact nomatch h
      | ok f' =>
          rw [hvisit] at h
          obtain ⟨hcalls, hcallees, hdistinct, hcalled⟩ := ih h
          obtain ⟨hcalls', hcallees', hdistinct', hcalled'⟩ := Finding.visit_after hvisit
          refine ⟨?_, ?_, fun hf => hdistinct (hdistinct' hf), fun span name hmem hbound => ?_⟩
          · rw [hcalls, hcalls', List.append_assoc, ← List.filterMap_append]
            rfl
          · rw [hcallees, hcallees', ← List.append_assoc, ← List.reverse_append,
              ← List.filterMap_append]
            rfl
          · rcases List.mem_cons.1 hmem with rfl | hmem
            · rw [hcallees]
              exact List.mem_append_right _ (hcalled' span name List.mem_cons_self hbound)
            · exact hcalled span name hmem hbound

/-- If the calls of a tree are found, they are all calls of macros in order, none within
an earlier one, and a macro is referred to only where it is called. -/
theorem findCalls_eq_ok {tree : Node} {calls : List MacroCall}
    (h : findCalls text bindings tree = .ok calls) :
    calls = tree.sites.filterMap (·.macroCall? text bindings) ∧
      calls.Pairwise (fun a b => a.span.covers b.span = false) ∧
      ∀ span name, .reference span name ∈ tree.sites → (bindings.lookup name).isSome = true →
        span.start ∈ tree.sites.filterMap (·.calleeStart? bindings) := by
  rw [findCalls] at h
  cases hfound : tree.sites.foldlM (Finding.visit text bindings) {} with
  | error e =>
      rw [hfound] at h
      exact nomatch h
  | ok found =>
      rw [hfound] at h
      cases h
      obtain ⟨hcalls, hcallees, hdistinct, hcalled⟩ := Finding.foldlM_after hfound
      refine ⟨hcalls, hdistinct .nil, fun span name hmem hbound => ?_⟩
      have hstart := hcalled span name hmem hbound
      rwa [hcallees, List.append_nil, List.mem_reverse] at hstart

theorem Site.callSpan?_of_macroCall? {site : Site} {call : MacroCall}
    (h : site.macroCall? text bindings = some call) : site.callSpan? = some call.span := by
  cases site with
  | call span callee name args =>
      obtain ⟨m, -, rfl⟩ := Option.map_eq_some_iff.1 h
      rfl
  | reference span name => exact nomatch h
  | binding span name => exact nomatch h

end

/-! ## Trees with spans in place -/

def Node.callSpans (tree : Node) : List Span :=
  tree.sites.filterMap (·.callSpan?)

/-- The calls and the imports of a tree have spans that are parts of the text. Calls that
do not contain each other are apart, of others the outer one is visited first; imports are
apart from each other and from the calls. -/
structure Node.Placed (text : String) (tree : Node) : Prop where
  calls : ∀ span ∈ tree.callSpans, span.StandsIn text
  imports : ∀ d ∈ imports tree, d.span.StandsIn text
  nested : tree.callSpans.Pairwise fun outer inner =>
    outer.covers inner = true ∨ outer.Apart inner
  importsApart : (Script.imports tree).Pairwise fun d e => d.span.Apart e.span
  callsApart : ∀ d ∈ Script.imports tree, ∀ span ∈ tree.callSpans, d.span.Apart span

instance (text : String) (tree : Node) : Decidable (tree.Placed text) :=
  decidable_of_iff ((∀ span ∈ tree.callSpans, span.StandsIn text) ∧
      (∀ d ∈ imports tree, d.span.StandsIn text) ∧
      (tree.callSpans.Pairwise fun outer inner =>
        outer.covers inner = true ∨ outer.Apart inner) ∧
      ((imports tree).Pairwise fun d e => d.span.Apart e.span) ∧
      ∀ d ∈ imports tree, ∀ span ∈ tree.callSpans, d.span.Apart span)
    ⟨fun ⟨calls, imports, nested, importsApart, callsApart⟩ =>
        ⟨calls, imports, nested, importsApart, callsApart⟩,
      fun ⟨calls, imports, nested, importsApart, callsApart⟩ =>
        ⟨calls, imports, nested, importsApart, callsApart⟩⟩

section

variable {text : String} {bindings : Bindings} {tree : Node} {calls : List MacroCall}
  (hplaced : tree.Placed text) (hfound : findCalls text bindings tree = .ok calls)

include hfound

theorem mem_callSpans_of_found {call : MacroCall} (h : call ∈ calls) :
    call.span ∈ tree.callSpans := by
  rw [(findCalls_eq_ok hfound).1] at h
  obtain ⟨site, hsite, hcall⟩ := List.mem_filterMap.1 h
  exact List.mem_filterMap.2 ⟨site, hsite, Site.callSpan?_of_macroCall? hcall⟩

include hplaced

/-- Calls that are found have no part of the text in common. -/
theorem Node.Placed.found_apart : calls.Pairwise fun a b => a.span.Apart b.span := by
  obtain ⟨hcalls, hdistinct, -⟩ := findCalls_eq_ok hfound
  have hnested : calls.Pairwise fun a b => a.span.covers b.span = true ∨ a.span.Apart b.span := by
    rw [hcalls]
    refine List.pairwise_filterMap.2 ((List.pairwise_filterMap.1 hplaced.nested).imp ?_)
    intro site site' h a ha b hb
    exact h _ (Site.callSpan?_of_macroCall? ha) _ (Site.callSpan?_of_macroCall? hb)
  refine (hnested.and hdistinct).imp fun h => h.1.resolve_left ?_
  rw [h.2]
  exact Bool.false_ne_true

end

end SiteMacros.Script
