import SiteMacros.Proofs.Waiting
import SiteMacros.Session.Process

/-!
# Passes until nothing is gained

Modules that wait are tried again for as long as that can help. The number of
passes is bounded from the start, and the bound is never what ends them: each
pass that is followed by another has added an entry, the entries that modules can
add are finitely many (`entriesOfAll`), and the bound is no less than their
number. So the passes are those of the loop without a bound (`Settles`), which
stops when no module waits or the registry has kept its size.

A registry that has kept its size over a pass has kept its entries, and so had
these entries at every moment of the pass. A module that waits at the end has
asked such a registry, and it asks the registry that the passes leave in vain
too.
-/

namespace SiteMacros.Session

open Expansion

variable {tree : FileTree} {force : Path → Bool}

/-! ## One module -/

/-- A module in the session's project. -/
def surroundings (s : Session) (tree : FileTree) (p : Path) : Surroundings :=
  ⟨tree, s.configuration, s.root, p⟩

/-- The entries that a module of the session can register. -/
def entriesOf (s : Session) (tree : FileTree) (p : Path) : List Entry :=
  match tree.readText p with
  | .ok text => moduleEntries (s.surroundings tree p) text
  | .error _ => []

/-- All that the modules can register is among `es`. -/
def Covers (s : Session) (tree : FileTree) (ps : List Path) (es : List Entry) : Prop :=
  ∀ p ∈ ps, ∀ q ∈ s.entriesOf tree p, q ∈ es

/-- `s'` is the session `s` after modules have added entries among `es`. -/
structure Later (es : List Entry) (s s' : Session) : Prop where
  root : s'.root = s.root
  configuration : s'.configuration = s.configuration
  grows : s.registry.Grows es s'.registry

namespace Later

variable {es : List Entry} {s s' s'' : Session}

theorem refl (es : List Entry) (s : Session) : Later es s s :=
  ⟨rfl, rfl, .refl _ _⟩

theorem trans (h : Later es s s') (h' : Later es s' s'') : Later es s s'' :=
  ⟨h'.root.trans h.root, h'.configuration.trans h.configuration, h.grows.trans h'.grows⟩

theorem surroundings_eq (h : Later es s s') (tree : FileTree) (p : Path) :
    s'.surroundings tree p = s.surroundings tree p := by
  rw [surroundings, surroundings, h.root, h.configuration]

theorem entriesOf_eq (h : Later es s s') (tree : FileTree) (p : Path) :
    s'.entriesOf tree p = s.entriesOf tree p := by
  rw [entriesOf, entriesOf, h.surroundings_eq]

theorem covers {ps : List Path} {fs : List Entry} (h : Later es s s') {tree : FileTree}
    (hcovers : s.Covers tree ps fs) : s'.Covers tree ps fs := by
  intro p hp q hq
  rw [h.entriesOf_eq] at hq
  exact hcovers p hp q hq

end Later

theorem process_later (s : Session) (tree : FileTree) (force : Bool) (p : Path)
    {es : List Entry} (hes : ∀ q ∈ s.entriesOf tree p, q ∈ es) :
    Later es s (s.process tree force p).1 := by
  rw [process]
  cases htext : tree.readText p with
  | error fault => exact .refl _ _
  | ok text =>
      dsimp only
      split
      · exact .refl _ _
      · have hgrows := expandModule_grows (s.surroundings tree p) s.registry text
        rw [surroundings] at hgrows
        rw [entriesOf, htext] at hes
        have hlater : ∀ cache, Later es s { s with
            registry := (expandModule ⟨tree, s.configuration, s.root, p⟩ s.registry text).1
            cache } :=
          fun _ => ⟨rfl, rfl, hgrows.mono hes⟩
        split
        · exact hlater _
        · exact hlater _
        · exact hlater _

/-- A module waits because its expansion fails that way. -/
theorem process_waits {s : Session} {b : Bool} {p : Path} {f : Failure}
    (h : (s.process tree b p).2 = .error f) (hf : f.awaitsRegistration = true) :
    ∃ text e, tree.readText p = .ok text ∧ f = .unexpanded p e ∧
      expandModule (s.surroundings tree p) s.registry text =
        ((s.process tree b p).1.registry, .error e) := by
  rw [process] at h ⊢
  cases htext : tree.readText p with
  | error fault =>
      rw [htext] at h
      cases h
      exact nomatch hf
  | ok text =>
      rw [htext] at h
      dsimp only at h ⊢
      split at h
      · exact nomatch h
      · next hfresh =>
          rw [if_neg hfresh]
          split at h
          · next e he =>
              cases h
              refine ⟨text, e, rfl, rfl, ?_⟩
              rw [surroundings, ← he]
          · exact nomatch h
          · exact nomatch h

/-! ## One pass -/

theorem pass_paths (s : Session) (tree : FileTree) (force : Path → Bool) (ps : List Path) :
    (s.pass tree force ps).2.map (·.1) = ps := by
  induction ps generalizing s with
  | nil => rfl
  | cons p ps ih =>
      rw [pass, List.map_cons]
      exact congrArg (p :: ·) (ih _)

theorem pass_later (s : Session) (tree : FileTree) (force : Path → Bool) (ps : List Path)
    {es : List Entry} (hes : s.Covers tree ps es) : Later es s (s.pass tree force ps).1 := by
  induction ps generalizing s with
  | nil => exact .refl _ _
  | cons p ps ih =>
      have hp := process_later s tree (force p) p (hes p List.mem_cons_self)
      exact hp.trans (ih _ (hp.covers fun p' hp' => hes p' (List.mem_cons_of_mem p hp')))

/-- The registry that a waiting module was expanded with lies between those before
and after the pass, and so does the one that it left. -/
theorem pass_waits {s : Session} {ps : List Path} {es : List Entry}
    (hes : s.Covers tree ps es) {p : Path} {f : Failure}
    (h : (p, .error f) ∈ (s.pass tree force ps).2) (hf : f.awaitsRegistration = true) :
    ∃ text e r r', tree.readText p = .ok text ∧ s.registry.Grows es r ∧
      expandModule (s.surroundings tree p) r text = (r', .error e) ∧
      f = .unexpanded p e ∧ r.Grows es r' ∧
      r'.Grows es (s.pass tree force ps).1.registry := by
  induction ps generalizing s with
  | nil => exact absurd h List.not_mem_nil
  | cons p' ps ih =>
      have hp := process_later s tree (force p') p' (hes p' List.mem_cons_self)
      have hes' : (s.process tree (force p') p').1.Covers tree ps es :=
        hp.covers fun p hp' => hes p (List.mem_cons_of_mem p' hp')
      rw [pass] at h ⊢
      rcases List.mem_cons.1 h with h | h
      · obtain ⟨rfl, hresult⟩ := Prod.mk.inj h
        obtain ⟨text, e, htext, rfl, hexpand⟩ := process_waits hresult.symm hf
        exact ⟨text, e, s.registry, _, htext, .refl _ _, hexpand, rfl, hp.grows,
          (pass_later _ tree force ps hes').grows⟩
      · obtain ⟨text, e, r, r', htext, hr, hexpand, rfl, hr', hafter⟩ := ih hes' h
        rw [hp.surroundings_eq] at hexpand
        exact ⟨text, e, r, r', htext, hp.grows.trans hr, hexpand, rfl, hr', hafter⟩

/-! ## The loop without a bound -/

/-- The results of modules that wait. -/
def waiting (results : List Processed) : List Processed :=
  results.filter Processed.waits

/-- The results that are final. -/
def settled (results : List Processed) : List Processed :=
  results.filter (!·.waits)

/-- Passes over modules, as many as it takes: after a pass the loop ends if no
module waits or the registry has the size that it had before, and else goes on
with those that wait. -/
inductive Settles (tree : FileTree) :
    (Path → Bool) → List Path → Session → Session → List Processed → Prop where
  | done {force ps s}
      (h : waiting (s.pass tree force ps).2 = [] ∨
        (s.pass tree force ps).1.registry.size = s.registry.size) :
      Settles tree force ps s (s.pass tree force ps).1
        (settled (s.pass tree force ps).2 ++ waiting (s.pass tree force ps).2)
  | again {force ps s final rest}
      (hwaiting : waiting (s.pass tree force ps).2 ≠ [])
      (hsize : (s.pass tree force ps).1.registry.size ≠ s.registry.size)
      (h : Settles tree (fun _ => true) ((waiting (s.pass tree force ps).2).map (·.1))
        (s.pass tree force ps).1 final rest) :
      Settles tree force ps s final (settled (s.pass tree force ps).2 ++ rest)

/-- The number of entries in a list that a registry has not. -/
def missing (es : List Entry) (r : Registry) : Nat :=
  es.countP fun q => !r.has q

theorem missing_lt_of_grows {es : List Entry} {r r' : Registry} (h : r.Grows es r')
    (hsize : r.size < r'.size) : missing es r' < missing es r := by
  obtain ⟨q, hq, hq'⟩ := h.exists_new_of_size_lt hsize
  obtain ⟨before, after, rfl⟩ := List.append_of_mem (h.mem_of_has hq hq')
  have hle : ∀ fs : List Entry, missing fs r' ≤ missing fs r := by
    intro fs
    refine List.countP_mono_left fun e _ he => ?_
    rw [Bool.not_eq_true'] at he ⊢
    exact Bool.eq_false_iff.2 fun hhas => by
      rw [h.has_of_has hhas] at he
      exact nomatch he
  have hbefore := hle before
  have hafter := hle after
  simp only [missing, List.countP_append, List.countP_cons, hq, hq'] at hbefore hafter ⊢
  simp only [Bool.not_true, Bool.not_false, if_true, Bool.false_eq_true, if_false]
  omega

theorem passes_zero (s : Session) (tree : FileTree) (force : Path → Bool) (ps : List Path) :
    s.passes tree force 0 ps = ((s.pass tree force ps).1,
      settled (s.pass tree force ps).2 ++ waiting (s.pass tree force ps).2) := by
  unfold passes
  simp only [List.partition_eq_filter_filter]
  rfl

theorem passes_succ (s : Session) (tree : FileTree) (force : Path → Bool) (more : Nat)
    (ps : List Path) :
    s.passes tree force (more + 1) ps =
      let after := (s.pass tree force ps).1
      let results := (s.pass tree force ps).2
      if (waiting results).isEmpty || after.registry.size == s.registry.size then
        (after, settled results ++ waiting results)
      else
        let next := after.passes tree (fun _ => true) more ((waiting results).map (·.1))
        (next.1, settled results ++ next.2) := by
  conv => lhs; unfold passes
  simp only [List.partition_eq_filter_filter]
  rfl

theorem covers_waiting {ps : List Path} {s : Session} {es : List Entry}
    (hes : s.Covers tree ps es) :
    (s.pass tree force ps).1.Covers tree ((waiting (s.pass tree force ps).2).map (·.1)) es := by
  refine (pass_later s tree force ps hes).covers fun p hp => hes p ?_
  obtain ⟨⟨p', result⟩, hresult, rfl⟩ := List.mem_map.1 hp
  rw [← pass_paths s tree force ps]
  exact List.mem_map_of_mem (List.mem_filter.1 hresult).1

theorem passes_later {s : Session} {ps : List Path} {es : List Entry} (more : Nat)
    (hes : s.Covers tree ps es) : Later es s (s.passes tree force more ps).1 := by
  induction more generalizing s force ps with
  | zero =>
      rw [passes_zero]
      exact pass_later s tree force ps hes
  | succ more ih =>
      have hpass := pass_later s tree force ps hes
      rw [passes_succ]
      dsimp only
      split
      · exact hpass
      · exact hpass.trans (ih (covers_waiting hes))

/-- With no fewer passes allowed than entries are missing, the bound ends
nothing. -/
theorem passes_settles {es : List Entry} {more : Nat} {ps : List Path} {s : Session}
    (hes : s.Covers tree ps es) (hmore : missing es s.registry ≤ more) :
    Settles tree force ps s (s.passes tree force more ps).1 (s.passes tree force more ps).2 := by
  induction more generalizing force ps s with
  | zero =>
      have hlater := pass_later s tree force ps hes
      have hsize : (s.pass tree force ps).1.registry.size = s.registry.size := by
        rcases Nat.eq_or_lt_of_le hlater.grows.size_le with heq | hlt
        · exact heq.symm
        · have hfewer := missing_lt_of_grows hlater.grows hlt
          omega
      rw [passes_zero]
      exact .done (.inr hsize)
  | succ more ih =>
      have hlater := pass_later s tree force ps hes
      rw [passes_succ]
      dsimp only
      split
      · next hstop =>
          rw [Bool.or_eq_true, List.isEmpty_iff, beq_iff_eq] at hstop
          exact .done hstop
      · next hgo =>
          rw [Bool.or_eq_true, List.isEmpty_iff, beq_iff_eq, not_or] at hgo
          have hle := hlater.grows.size_le
          have hlt := missing_lt_of_grows hlater.grows (by omega)
          exact .again hgo.1 hgo.2 (ih (covers_waiting hes) (by omega))

theorem settled_append_waiting_perm (results : List Processed) :
    (settled results ++ waiting results).Perm results :=
  List.perm_append_comm.trans (List.filter_append_perm _ results)

/-- Each module has one result, whatever the passes. -/
theorem Settles.paths_perm {ps : List Path} {s final : Session} {results : List Processed}
    (h : Settles tree force ps s final results) : (results.map (·.1)).Perm ps := by
  induction h with
  | @done force ps s h =>
      have hpass := (settled_append_waiting_perm (s.pass tree force ps).2).map (·.1)
      rwa [pass_paths] at hpass
  | @again force ps s final rest hwaiting hsize h ih =>
      have hpass := (settled_append_waiting_perm (s.pass tree force ps).2).map (·.1)
      rw [pass_paths, List.map_append] at hpass
      rw [List.map_append]
      exact (ih.append_left _).trans hpass

/-- The passes have one outcome. -/
theorem Settles.unique {ps : List Path} {s final final' : Session}
    {results results' : List Processed}
    (h : Settles tree force ps s final results) (h' : Settles tree force ps s final' results') :
    final' = final ∧ results' = results := by
  induction h generalizing final' results' with
  | done hstop =>
      cases h' with
      | done _ => exact ⟨rfl, rfl⟩
      | again hwaiting hsize _ =>
          rcases hstop with hstop | hstop
          · exact absurd hstop hwaiting
          · exact absurd hstop hsize
  | again hwaiting hsize _ ih =>
      cases h' with
      | done hstop =>
          rcases hstop with hstop | hstop
          · exact absurd hstop hwaiting
          · exact absurd hstop hsize
      | again _ _ h' =>
          obtain ⟨rfl, rfl⟩ := ih h'
          exact ⟨rfl, rfl⟩

/-- A module that waits when the passes end fails also with the registry that they
leave. -/
theorem Settles.waits_in_vain {es : List Entry} {ps : List Path} {s final : Session}
    {results : List Processed} (h : Settles tree force ps s final results)
    (hes : s.Covers tree ps es) {p : Path} {f : Failure}
    (hresult : (p, .error f) ∈ results) (hf : f.awaitsRegistration = true) :
    ∃ text e, tree.readText p = .ok text ∧
      (expandModule (s.surroundings tree p) final.registry text).2 = .error e := by
  have hnot : ∀ rs : List Processed, (p, .error f) ∉ settled rs := by
    intro rs hmem
    have hwaits := (List.mem_filter.1 hmem).2
    simp only [Processed.waits, hf, Bool.not_true] at hwaits
    exact nomatch hwaits
  induction h with
  | @done force ps s hstop =>
      rcases List.mem_append.1 hresult with hresult | hresult
      · exact absurd hresult (hnot _)
      · rcases hstop with hnone | hsize
        · rw [hnone] at hresult
          exact absurd hresult List.not_mem_nil
        · obtain ⟨text, e, r, r', htext, hr, hexpand, rfl, hr', hafter⟩ :=
            pass_waits hes (List.mem_filter.1 hresult).1 hf
          -- over the last pass the entries stay the same, so they do around the module
          have hpass : SameEntries s.registry (s.pass tree force ps).1.registry :=
            ((hr.trans hr').trans hafter).has_eq_of_size_eq hsize
          have hbefore : SameEntries s.registry r := hpass.between hr (hr'.trans hafter)
          have hrest : SameEntries r (s.pass tree force ps).1.registry := fun q =>
            (hpass q).trans (hbefore q).symm
          obtain ⟨e', he'⟩ := expandModule_fails_again (s.surroundings tree p) text (e := e)
            hrest (by rw [hexpand]; exact hrest.between hr' hafter) (by rw [hexpand]) hf
          exact ⟨text, e', htext, he'⟩
  | @again force ps s final rest hwaiting hsize h ih =>
      rcases List.mem_append.1 hresult with hresult | hresult
      · exact absurd hresult (hnot _)
      · have hlater := pass_later s tree force ps hes
        obtain ⟨text, e, htext, he⟩ := ih (covers_waiting hes) hresult
        rw [hlater.surroundings_eq] at he
        exact ⟨text, e, htext, he⟩

/-! ## Processing modules in their order -/

theorem length_entriesOf_le (s : Session) (tree : FileTree) (p : Path) :
    (s.entriesOf tree p).length ≤ s.entryBound tree p := by
  rw [entriesOf, entryBound]
  cases tree.readText p with
  | error fault => exact Nat.zero_le _
  | ok text =>
      simp only [moduleEntries, surroundings]
      rcases analyze s.configuration p text with e | _ | ⟨node, calls⟩
      · exact Nat.zero_le _
      · exact Nat.zero_le _
      · exact length_flatMap_registrable_le ⟨tree, s.configuration, s.root, p⟩ calls

theorem length_flatMap_entriesOf_le (s : Session) (tree : FileTree) (ps : List Path) :
    (ps.flatMap (s.entriesOf tree)).length ≤ s.entryBoundAll tree ps := by
  induction ps with
  | nil => exact Nat.zero_le _
  | cons p ps ih =>
      have hentries := s.length_entriesOf_le tree p
      rw [List.flatMap_cons, List.length_append, entryBoundAll]
      omega

theorem inOrder_perm (s : Session) (tree : FileTree) (modules : List Path) :
    (s.inOrder tree modules).Perm modules := by
  have h := (sorted_perm buildOrder.le (modules.map fun p => (p, s.scan tree p))).map (·.1)
  rw [List.map_map] at h
  exact h.trans (by rw [show ((fun x => x.1) ∘ fun p => (p, s.scan tree p)) = id from rfl,
    List.map_id])

theorem covers_inOrder (s : Session) (tree : FileTree) (modules : List Path) :
    s.Covers tree (s.inOrder tree modules)
      ((s.inOrder tree modules).flatMap (s.entriesOf tree)) :=
  fun p hp _ hq => List.mem_flatMap.2 ⟨p, hp, hq⟩

theorem processAll_settles (s : Session) (tree : FileTree) (force : Path → Bool)
    (modules : List Path) :
    Settles tree force (s.inOrder tree modules) s (s.processAll tree force modules).1
      (s.processAll tree force modules).2 := by
  have hcovers : s.Covers tree (s.inOrder tree modules) (modules.flatMap (s.entriesOf tree)) :=
    fun p hp q hq => List.mem_flatMap.2 ⟨p, (s.inOrder_perm tree modules).mem_iff.1 hp, hq⟩
  have hbound := s.length_flatMap_entriesOf_le tree modules
  exact passes_settles hcovers (Nat.le_trans List.countP_le_length hbound)

theorem processAll_paths_perm (s : Session) (tree : FileTree) (force : Path → Bool)
    (modules : List Path) : ((s.processAll tree force modules).2.map (·.1)).Perm modules :=
  (s.processAll_settles tree force modules).paths_perm.trans (s.inOrder_perm tree modules)

/-- Processing modules adds to the registry and keeps what it is about. -/
theorem processAll_later (s : Session) (tree : FileTree) (force : Path → Bool)
    (modules : List Path) :
    Later ((s.inOrder tree modules).flatMap (s.entriesOf tree)) s
      (s.processAll tree force modules).1 :=
  passes_later _ (s.covers_inOrder tree modules)

/-- Processing modules is the loop without a bound: it has an outcome, and this is
the one. Each module has one result. A module that is reported as waiting fails
also when it is expanded once more with the registry that is left behind. -/
theorem processAll_settles_modules (s : Session) (tree : FileTree) (force : Path → Bool)
    (modules : List Path) :
    let out := s.processAll tree force modules
    (∀ final results,
      Settles tree force (s.inOrder tree modules) s final results ↔ (final, results) = out) ∧
    (out.2.map (·.1)).Perm modules ∧
    ∀ p f, (p, .error f) ∈ out.2 → f.awaitsRegistration = true →
      ∃ text e, tree.readText p = .ok text ∧
        (expandModule (s.surroundings tree p) out.1.registry text).2 = .error e := by
  intro out
  have hsettles := s.processAll_settles tree force modules
  refine ⟨fun final results => ⟨fun h => ?_, fun h => ?_⟩, ?_, fun p f hresult hf => ?_⟩
  · obtain ⟨hfinal, hresults⟩ := hsettles.unique h
    exact Prod.ext hfinal hresults
  · obtain ⟨rfl, rfl⟩ := Prod.mk.inj h
    exact hsettles
  · exact s.processAll_paths_perm tree force modules
  · exact hsettles.waits_in_vain (s.covers_inOrder tree modules) hresult hf

end SiteMacros.Session
