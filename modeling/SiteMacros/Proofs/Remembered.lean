import Mathlib.Data.List.Pairwise
import SiteMacros.Proofs.Batches
import SiteMacros.Proofs.Turns

/-!
# What the cache remembers of a run

A turn of a module touches the cache at the module's own path only: it puts the
expansion there, or takes away what is there if the text has no macros, or leaves it
alone if the module fails or is fresh (`get?_process`). A module that waits has failed
so far, and so it comes to its last turn with the cache that the run began with. After
its last turn nothing touches its place any more. So what the cache has for a module
after a run is settled by the module's last turn and by what was there before
(`get?_processAll`).
-/

namespace SiteMacros

namespace ModuleCache

theorem get?_insert (c : ModuleCache) (p q : Path) (m : CachedModule) :
    (c.insert p m).get? q = if q.components = p.components then some m else c.get? q :=
  c.modules.get?_insert p q m

theorem get?_erase (c : ModuleCache) (p q : Path) :
    (c.erase p).get? q = if q.components = p.components then none else c.get? q :=
  c.modules.get?_erase p q

theorem get?_eraseUnder (c : ModuleCache) (dir q : Path) :
    (c.eraseUnder dir).get? q = if q.startsWith dir then none else c.get? q :=
  c.modules.get?_eraseUnder dir q

theorem get?_congr (c : ModuleCache) {p q : Path} (h : p.components = q.components) :
    c.get? p = c.get? q :=
  c.modules.get?_congr h

end ModuleCache

namespace Session

open Expansion

variable {tree : FileTree} {force : Path → Bool}

/-- What the module's text comes to now, as it would be cached. -/
def entryNow? (s : Session) (tree : FileTree) (p : Path) : Option CachedModule :=
  match tree.readText p with
  | .error _ => none
  | .ok text =>
      match (expandModule (s.surroundings tree p) s.registry text).2 with
      | .ok (some m) => some ⟨Text.digest text, m.dependencies, m.code⟩
      | _ => none

theorem entryNow?_eq_some {s : Session} {t : FileTree} {p : Path} {m : CachedModule} :
    s.entryNow? t p = some m ↔ ∃ text x, t.readText p = .ok text ∧
      (expandModule (s.surroundings t p) s.registry text).2 = .ok (some x) ∧
        m = ⟨Text.digest text, x.dependencies, x.code⟩ := by
  rw [entryNow?]
  cases t.readText p with
  | error fault => simp
  | ok text =>
      simp only [Except.ok.injEq, exists_eq_left', exists_and_left]
      rcases (expandModule (s.surroundings t p) s.registry text).2 with e | _ | x
      · simp
      · simp
      · simp [eq_comm]

/-- What a turn leaves in the cache for its module, where there was `old` before. -/
def Turn.leaves (t : Turn) (tree : FileTree) (old : Option CachedModule) : Option CachedModule :=
  match t.result with
  | .ok (.expanded _) => t.before.entryNow? tree t.file
  | .ok (.unchanged _) => none
  | .ok .fresh => old
  | .error _ => old

theorem Turn.leaves_of_waits {t : Turn} (h : t.processed.waits = true)
    (old : Option CachedModule) : t.leaves tree old = old := by
  rw [leaves]
  rw [processed, Processed.waits] at h
  cases hresult : t.result with
  | error e => rfl
  | ok outcome =>
      rw [hresult] at h
      cases h

/-! ## One turn -/

theorem get?_process (s : Session) (tree : FileTree) (b : Bool) (p q : Path) :
    (s.process tree b p).1.cache.get? q =
      if q.components = p.components then
        Turn.leaves ⟨s, p, (s.process tree b p).2⟩ tree (s.cache.get? q)
      else s.cache.get? q := by
  rw [Turn.leaves, entryNow?]
  rw [process]
  cases htext : tree.readText p with
  | error fault => simp
  | ok text =>
      dsimp only
      by_cases hfresh : (!b && s.cache.isFresh p (Text.digest text)) = true
      · rw [if_pos hfresh]
        simp
      · rw [if_neg hfresh, surroundings]
        rcases (expandModule ⟨tree, s.configuration, s.root, p⟩ s.registry text).2 with e | _ | m
        · simp
        · exact s.cache.get?_erase p q
        · exact s.cache.get?_insert p q _

theorem get?_process_of_ne {s : Session} {b : Bool} {p q : Path}
    (h : q.components ≠ p.components) : (s.process tree b p).1.cache.get? q = s.cache.get? q := by
  rw [get?_process, if_neg h]

theorem get?_pass_of_ne {s : Session} {ps : List Path} {q : Path}
    (h : ∀ p ∈ ps, q.components ≠ p.components) :
    (s.pass tree force ps).1.cache.get? q = s.cache.get? q := by
  induction ps generalizing s with
  | nil => rfl
  | cons p ps ih =>
      obtain ⟨hp, hps⟩ := List.forall_mem_cons.1 h
      rw [pass]
      exact (ih hps).trans (get?_process_of_ne hp)

/-! ## The turns of a pass -/

theorem map_file_passTurns (s : Session) (tree : FileTree) (force : Path → Bool) (ps : List Path) :
    (s.passTurns tree force ps).map (·.file) = ps := by
  have hpaths := s.pass_paths tree force ps
  rwa [← passTurns_processed, List.map_map] at hpaths

/-- What a turn has to do with the cache before a run, and with the cache and the forced
modules of the run. -/
structure Turn.Remembered (t : Turn) (tree : FileTree) (force : Path → Bool)
    (before after : ModuleCache) : Prop where
  found : t.before.cache.get? t.file = before.get? t.file
  left : after.get? t.file = t.leaves tree (before.get? t.file)
  result : ∃ b, t.result = (t.before.process tree b t.file).2 ∧ (force t.file = true → b = true)
  fresh : t.result = .ok .fresh ↔ force t.file = false ∧
    ∃ text, tree.readText t.file = .ok text ∧ before.isFresh t.file (Text.digest text) = true

theorem process_fresh_iff {s : Session} {b : Bool} {p : Path} :
    (s.process tree b p).2 = .ok .fresh ↔ b = false ∧
      ∃ text, tree.readText p = .ok text ∧ s.cache.isFresh p (Text.digest text) = true := by
  rw [process]
  cases htext : tree.readText p with
  | error fault => simp
  | ok text =>
      dsimp only
      by_cases hfresh : (!b && s.cache.isFresh p (Text.digest text)) = true
      · rw [if_pos hfresh]
        rw [Bool.and_eq_true, Bool.not_eq_true'] at hfresh
        simp [hfresh]
      · rw [if_neg hfresh]
        rw [Bool.and_eq_true, Bool.not_eq_true', not_and] at hfresh
        refine iff_of_false ?_ ?_
        · split <;> intro h <;> cases h
        · rintro ⟨hb, text', htext', hfresh'⟩
          cases htext'
          exact hfresh hb hfresh'

theorem isFresh_congr {c c' : ModuleCache} {p : Path} (h : c.get? p = c'.get? p)
    (fingerprint : String) : c.isFresh p fingerprint = c'.isFresh p fingerprint := by
  rw [ModuleCache.isFresh, ModuleCache.isFresh, h]

theorem remembered_passTurns {s : Session} {ps : List Path} (hps : Distinct ps) {t : Turn}
    (ht : t ∈ s.passTurns tree force ps) :
    t.Remembered tree force s.cache (s.pass tree force ps).1.cache := by
  induction ps generalizing s with
  | nil => exact absurd ht List.not_mem_nil
  | cons p ps ih =>
      obtain ⟨hp, hps⟩ := List.pairwise_cons.1 hps
      rw [passTurns] at ht
      rw [pass]
      rcases List.mem_cons.1 ht with rfl | ht
      · refine ⟨rfl, ?_, ⟨force p, rfl, id⟩, process_fresh_iff⟩
        have hleft := get?_process s tree (force p) p p
        rw [if_pos rfl] at hleft
        exact (get?_pass_of_ne hp).trans hleft
      · have hfile : t.file ∈ ps := by
          rw [← map_file_passTurns (s.process tree (force p) p).1 tree force ps]
          exact List.mem_map_of_mem ht
        have hkept : (s.process tree (force p) p).1.cache.get? t.file = s.cache.get? t.file :=
          get?_process_of_ne (Ne.symm (hp t.file hfile))
        obtain ⟨hfound, hleft, hresult, hfresh⟩ := ih hps ht
        rw [hkept] at hfound hleft
        simp only [isFresh_congr hkept] at hfresh
        exact ⟨hfound, hleft, hresult, hfresh⟩

/-! ## The last turns of a run -/

theorem passTurns_distinct {s : Session} {ps : List Path} (hps : Distinct ps) :
    (s.passTurns tree force ps).Pairwise fun t u => t.file.components ≠ u.file.components := by
  rw [← map_file_passTurns s tree force ps, Distinct, List.pairwise_map] at hps
  exact hps

theorem get?_passes_of_ne {s : Session} {ps : List Path} {more : Nat} {q : Path}
    (h : ∀ p ∈ ps, q.components ≠ p.components) :
    (s.passes tree force more ps).1.cache.get? q = s.cache.get? q := by
  induction more generalizing s force ps with
  | zero =>
      rw [passes_zero]
      exact get?_pass_of_ne h
  | succ more ih =>
      rw [passes_succ]
      dsimp only
      split
      · exact get?_pass_of_ne h
      · exact (ih fun p hp => h p (mem_of_mem_waiting hp)).trans (get?_pass_of_ne h)

/-- A module that waits has not been fresh, and has left what was there. -/
theorem Turn.Remembered.again {t w : Turn} {c c' c'' : ModuleCache}
    (hw : w.Remembered tree force c c') (hwaits : w.processed.waits = true)
    (ht : t.Remembered tree (fun _ => true) c' c'') (hfile : t.file = w.file) :
    t.Remembered tree force c c'' := by
  have hkept : c'.get? t.file = c.get? t.file := by
    rw [hfile, hw.left, leaves_of_waits hwaits]
  obtain ⟨hfound, hleft, ⟨b, hresult, hb⟩, hfresh⟩ := ht
  rw [hkept] at hfound hleft
  refine ⟨hfound, hleft, ⟨b, hresult, fun _ => hb rfl⟩, iff_of_false (fun h => ?_) fun h => ?_⟩
  · cases (hfresh.1 h).1
  · rw [hfile] at h
    rw [processed, Processed.waits, hw.fresh.2 h] at hwaits
    cases hwaits

theorem file_mem_of_lastTurns {s : Session} {ps : List Path} {more : Nat} {t : Turn}
    (ht : t ∈ s.lastTurns tree force more ps) : t.file ∈ ps := by
  have hpass : ∀ {force ps s}, ∀ t ∈ passTurns tree force ps s, t.file ∈ ps := by
    intro force ps s t ht
    rw [← map_file_passTurns s tree force ps]
    exact List.mem_map_of_mem ht
  induction more generalizing s force ps with
  | zero =>
      rw [lastTurns] at ht
      rcases List.mem_append.1 ht with ht | ht <;> exact hpass t (List.mem_filter.1 ht).1
  | succ more ih =>
      rw [lastTurns] at ht
      split at ht
      · rcases List.mem_append.1 ht with ht | ht <;> exact hpass t (List.mem_filter.1 ht).1
      · rcases List.mem_append.1 ht with ht | ht
        · exact hpass t (List.mem_filter.1 ht).1
        · obtain ⟨w, hw, hfile⟩ := List.mem_map.1 (ih ht)
          rw [← hfile]
          exact hpass w (List.mem_filter.1 hw).1

theorem remembered_lastTurns {s : Session} {ps : List Path} (hps : Distinct ps) {more : Nat}
    {t : Turn} (ht : t ∈ s.lastTurns tree force more ps) :
    t.Remembered tree force s.cache (s.passes tree force more ps).1.cache := by
  induction more generalizing s force ps with
  | zero =>
      rw [passes_zero]
      rw [lastTurns] at ht
      rcases List.mem_append.1 ht with ht | ht <;>
        exact remembered_passTurns hps (List.mem_filter.1 ht).1
  | succ more ih =>
      rw [lastTurns] at ht
      rw [passes_succ, ← passTurns_processed]
      dsimp only at ht ⊢
      rw [waiting_processed, List.isEmpty_map, List.map_map]
      split at ht
      · next hstop =>
          rw [if_pos hstop]
          rcases List.mem_append.1 ht with ht | ht <;>
            exact remembered_passTurns hps (List.mem_filter.1 ht).1
      · next hgo =>
          rw [if_neg hgo]
          have hdistinct := @passTurns_distinct tree force s ps hps
          rcases List.mem_append.1 ht with ht | ht
          · -- a module that is settled is not among those that wait
            obtain ⟨ht, hsettled⟩ := List.mem_filter.1 ht
            obtain ⟨hfound, hleft, hresult, hfresh⟩ := remembered_passTurns hps ht
            refine ⟨hfound, (get?_passes_of_ne fun p hp => ?_).trans hleft, hresult, hfresh⟩
            obtain ⟨w, hw, rfl⟩ := List.mem_map.1 hp
            obtain ⟨hw, hwaits⟩ := List.mem_filter.1 hw
            have : Std.Symm fun t u : Turn => t.file.components ≠ u.file.components :=
              ⟨fun _ _ h => Ne.symm h⟩
            refine hdistinct.forall ht hw ?_
            rintro rfl
            rw [hwaits] at hsettled
            cases hsettled
          · have hwaiting : Distinct
                (((s.passTurns tree force ps).filter (·.processed.waits)).map (·.file)) :=
              List.pairwise_map.2 (hdistinct.filter _)
            obtain ⟨w, hw, hfile⟩ := List.mem_map.1 (file_mem_of_lastTurns ht)
            obtain ⟨hw, hwaits⟩ := List.mem_filter.1 hw
            exact (remembered_passTurns hps hw).again hwaits (ih hwaiting ht) hfile.symm

/-! ## A whole run -/

variable {s : Session} {modules : List Path}

theorem inOrder_distinct (s : Session) (tree : FileTree) (h : Distinct modules) :
    Distinct (s.inOrder tree modules) :=
  ((s.inOrder_perm tree modules).pairwise_iff fun hne => Ne.symm hne).2 h

/-- What a run leaves of a module in the cache is what its last turn leaves of what the
run has found there. -/
theorem remembered_turns (h : Distinct modules) {t : Turn}
    (ht : t ∈ s.turns tree force modules) :
    t.Remembered tree force s.cache (s.processAll tree force modules).1.cache :=
  remembered_lastTurns (s.inOrder_distinct tree h) ht

/-- A run leaves the other modules alone. -/
theorem get?_processAll_of_ne {q : Path} (h : ∀ p ∈ modules, q.components ≠ p.components) :
    (s.processAll tree force modules).1.cache.get? q = s.cache.get? q :=
  get?_passes_of_ne fun p hp => h p ((s.inOrder_perm tree modules).mem_iff.1 hp)

theorem turns_processed (s : Session) (tree : FileTree) (force : Path → Bool)
    (modules : List Path) :
    (s.turns tree force modules).map Turn.processed = (s.processAll tree force modules).2 :=
  lastTurns_processed s tree force _ _

theorem exists_turn {p : Path} (h : p ∈ modules) :
    ∃ t ∈ s.turns tree force modules, t.file = p := by
  have hp := (s.processAll_paths_perm tree force modules).mem_iff.2 h
  obtain ⟨r, hr, rfl⟩ := List.mem_map.1 hp
  rw [← turns_processed] at hr
  obtain ⟨t, ht, rfl⟩ := List.mem_map.1 hr
  exact ⟨t, ht, rfl⟩

end Session

end SiteMacros
