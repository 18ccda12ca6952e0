import SiteMacros.Proofs.Lockstep
import SiteMacros.Proofs.Retry

/-!
# The last turn of a module

A module that waits gets another turn as long as the registry grows; any other
outcome is kept. So what becomes of a module is settled at its last turn, with the
registry of that moment (`turns`), and the registry goes on growing afterwards.

Whether the outcome is also the one that the registry would give that is there in
the end depends on the questions of the module alone: it is, if they are answered
then as they were at the turn (`processAll_turns`). It need not be: a module
processed later can give a new route to the directory around it, and the outcome
stays as it is (`processAll_keeps_superseded_route`).
-/

namespace SiteMacros.Session

open Expansion

variable {tree : FileTree} {force : Path → Bool}

/-- One processing of a module: the session it found, and what became of it. -/
structure Turn where
  before : Session
  file : Path
  result : Except Failure Outcome

/-- The module and its result. -/
def Turn.processed (t : Turn) : Processed :=
  (t.file, t.result)

/-- The turns of one pass. -/
def passTurns (tree : FileTree) (force : Path → Bool) : List Path → Session → List Turn
  | [], _ => []
  | p :: ps, s =>
      ⟨s, p, (s.process tree (force p) p).2⟩ ::
        passTurns tree force ps (s.process tree (force p) p).1

/-- The last turn of each module in passes, with `more` further passes at most. -/
def lastTurns (tree : FileTree) (force : Path → Bool) (more : Nat) (ps : List Path)
    (s : Session) : List Turn :=
  let after := (s.pass tree force ps).1
  let all := s.passTurns tree force ps
  let waiting := all.filter (·.processed.waits)
  let settled := all.filter (!·.processed.waits)
  match more with
  | 0 => settled ++ waiting
  | more + 1 =>
      if waiting.isEmpty || after.registry.size == s.registry.size then settled ++ waiting
      else settled ++ lastTurns tree (fun _ => true) more (waiting.map (·.file)) after

/-- The last turn of each module that is processed. -/
def turns (s : Session) (tree : FileTree) (force : Path → Bool) (modules : List Path) :
    List Turn :=
  s.lastTurns tree force (s.entryBoundAll tree modules) (s.inOrder tree modules)

/-- The questions that a module of the session asks. -/
def questionsOf (s : Session) (tree : FileTree) (p : Path) : List Question :=
  match tree.readText p with
  | .ok text => moduleQuestions (s.surroundings tree p) text
  | .error _ => []

/-! ## Turns and results -/

theorem passTurns_processed (s : Session) (tree : FileTree) (force : Path → Bool)
    (ps : List Path) :
    (s.passTurns tree force ps).map Turn.processed = (s.pass tree force ps).2 := by
  induction ps generalizing s with
  | nil => rfl
  | cons p ps ih =>
      rw [passTurns, List.map_cons, ih, pass]
      rfl

theorem waiting_processed (ts : List Turn) :
    waiting (ts.map Turn.processed) = (ts.filter (·.processed.waits)).map Turn.processed :=
  List.filter_map

theorem settled_processed (ts : List Turn) :
    settled (ts.map Turn.processed) = (ts.filter (!·.processed.waits)).map Turn.processed :=
  List.filter_map

theorem lastTurns_processed (s : Session) (tree : FileTree) (force : Path → Bool) (more : Nat)
    (ps : List Path) :
    (s.lastTurns tree force more ps).map Turn.processed = (s.passes tree force more ps).2 := by
  induction more generalizing s force ps with
  | zero =>
      rw [passes_zero, ← passTurns_processed, waiting_processed, settled_processed,
        ← List.map_append]
      rfl
  | succ more ih =>
      rw [passes_succ, ← passTurns_processed, lastTurns]
      dsimp only
      rw [waiting_processed, settled_processed, List.isEmpty_map]
      split
      · rw [List.map_append]
      · rw [List.map_append, ih, List.map_map]
        rfl

/-! ## What a turn is -/

/-- What becomes of a module whose expansion comes to this. -/
def outcomeOf (p : Path) (text : String) :
    Except MacroError (Option ExpandedModule) → Except Failure Outcome
  | .error e => .error (.unexpanded p e)
  | .ok none => .ok (.unchanged text)
  | .ok (some m) => .ok (.expanded m.code)

theorem process_forced {s : Session} {p : Path} {text : String} (h : tree.readText p = .ok text) :
    (s.process tree true p).2 =
      outcomeOf p text (expandModule (s.surroundings tree p) s.registry text).2 := by
  rw [process, h, surroundings]
  dsimp only
  rw [if_neg (by simp)]
  rcases (expandModule ⟨tree, s.configuration, s.root, p⟩ s.registry text).2 with e | _ | m <;> rfl

/-- A module that is not found fresh is expanded as if it were forced. -/
theorem process_eq_forced {s : Session} {b : Bool} {p : Path}
    (h : (s.process tree b p).2 ≠ .ok .fresh) :
    (s.process tree b p).2 = (s.process tree true p).2 := by
  rw [process, process] at *
  cases htext : tree.readText p with
  | error fault => rfl
  | ok text =>
      rw [htext] at h
      dsimp only at h ⊢
      split at h
      · exact absurd rfl h
      · next hfresh =>
          rw [if_neg hfresh, if_neg (by simp)]

/-- Sessions whose registries answer a module's questions alike come to one outcome
of it. -/
theorem process_eq_of_alike {es : List Entry} {s s' : Session} (hlater : Later es s s') {p : Path}
    (h : AnswersAlike (s.questionsOf tree p) s.registry s'.registry) :
    (s'.process tree true p).2 = (s.process tree true p).2 := by
  cases htext : tree.readText p with
  | error fault => rw [process, process, htext]
  | ok text =>
      rw [questionsOf, htext] at h
      rw [process_forced htext, process_forced htext, hlater.surroundings_eq,
        expandModule_eq_of_alike _ text h]

/-- The turn is one of the run that leads from `s` to `final`. -/
structure Turn.Between (es : List Entry) (tree : FileTree) (s final : Session) (t : Turn) :
    Prop where
  reached : Later es s t.before
  result : ∃ b, t.result = (t.before.process tree b t.file).2
  left : Later es t.before final

theorem between_passTurns {s : Session} {ps : List Path} {es : List Entry}
    (hes : s.Covers tree ps es) {t : Turn} (h : t ∈ s.passTurns tree force ps) :
    t.Between es tree s (s.pass tree force ps).1 := by
  induction ps generalizing s with
  | nil => exact absurd h List.not_mem_nil
  | cons p ps ih =>
      have hp := process_later s tree (force p) p (hes p List.mem_cons_self)
      have hes' : (s.process tree (force p) p).1.Covers tree ps es :=
        hp.covers fun p' hp' => hes p' (List.mem_cons_of_mem p hp')
      have hrest := pass_later _ tree force ps hes'
      rw [passTurns] at h
      rcases List.mem_cons.1 h with rfl | h
      · exact ⟨.refl _ _, ⟨force p, rfl⟩, hp.trans hrest⟩
      · obtain ⟨hreached, hresult, hleft⟩ := ih hes' h
        exact ⟨hp.trans hreached, hresult, hleft⟩

theorem between_lastTurns {s : Session} {ps : List Path} {es : List Entry} {more : Nat}
    (hes : s.Covers tree ps es) {t : Turn} (h : t ∈ s.lastTurns tree force more ps) :
    t.Between es tree s (s.passes tree force more ps).1 := by
  have hpass : ∀ {force ps s}, Covers s tree ps es → ∀ t ∈ s.passTurns tree force ps,
      t.Between es tree s (s.pass tree force ps).1 := fun hes _ ht => between_passTurns hes ht
  induction more generalizing s force ps with
  | zero =>
      rw [passes_zero]
      rw [lastTurns] at h
      rcases List.mem_append.1 h with h | h <;> exact hpass hes t (List.mem_filter.1 h).1
  | succ more ih =>
      have hlater := pass_later s tree force ps hes
      have hcovers : (s.pass tree force ps).1.Covers tree
          ((waiting (s.pass tree force ps).2).map (·.1)) es := covers_waiting hes
      rw [← passTurns_processed, waiting_processed, List.map_map] at hcovers
      rw [lastTurns] at h
      rw [passes_succ, ← passTurns_processed]
      dsimp only at h ⊢
      rw [waiting_processed, List.isEmpty_map, List.map_map]
      split at h
      · next hstop =>
          rw [if_pos hstop]
          rcases List.mem_append.1 h with h | h <;> exact hpass hes t (List.mem_filter.1 h).1
      · next hgo =>
          rw [if_neg hgo]
          rcases List.mem_append.1 h with h | h
          · obtain ⟨hreached, hresult, hleft⟩ := hpass hes t (List.mem_filter.1 h).1
            exact ⟨hreached, hresult, hleft.trans (passes_later more hcovers)⟩
          · obtain ⟨hreached, hresult, hleft⟩ := ih hcovers h
            exact ⟨hlater.trans hreached, hresult, hleft⟩

/-- Each module keeps the outcome of its last turn: what its text comes to with the
registry of that moment. It is what the text comes to with the registry that is
there in the end as well, unless what has been registered since has changed the
answer to a question of the module. -/
theorem processAll_turns (s : Session) (tree : FileTree) (force : Path → Bool)
    (modules : List Path) :
    let out := s.processAll tree force modules
    (s.turns tree force modules).map Turn.processed = out.2 ∧
    ∀ t ∈ s.turns tree force modules, t.result ≠ .ok .fresh →
      t.result = (t.before.process tree true t.file).2 ∧
      (∃ added, out.1.registry = t.before.registry.registerAll added) ∧
      (AnswersAlike (s.questionsOf tree t.file) t.before.registry out.1.registry →
        t.result = (out.1.process tree true t.file).2) := by
  intro out
  refine ⟨lastTurns_processed s tree force _ _, fun t ht hfresh => ?_⟩
  have hcovers := s.covers_inOrder tree modules
  obtain ⟨hreached, ⟨b, hresult⟩, hleft⟩ := between_lastTurns hcovers ht
  have hforced : t.result = (t.before.process tree true t.file).2 := by
    rw [hresult] at hfresh ⊢
    exact process_eq_forced hfresh
  obtain ⟨added, -, hadded⟩ := hleft.grows
  refine ⟨hforced, ⟨added, hadded⟩, fun halike => ?_⟩
  have hquestions : t.before.questionsOf tree t.file = s.questionsOf tree t.file := by
    rw [questionsOf, questionsOf, hreached.surroundings_eq]
  rw [hforced]
  exact (process_eq_of_alike hleft (hquestions ▸ halike)).symm

/-- A project in which two modules load the menus of one directory, each with a base
of its own, and a third one asks between them. -/
def rebasedMenus : FileTree :=
  .dir [("p", .dir [("src", .dir [
    ("index.tsx", .file ""),
    ("a.ts", .file "import {loadMenus} from \"pages.macro\";\nloadMenus(\".\", \"/\");\n"),
    ("m.ts", .file
      ("import {loadMenus, resolveRoute} from \"pages.macro\";\n" ++
        "export default [resolveRoute(), loadMenus(\".\")];\n")),
    ("n.ts", .file "import {loadMenus} from \"pages.macro\";\nloadMenus(\".\", \"/x\");\n")])])]

/-- The module in the middle keeps the route `/`, although its directory has the
route `/x` in the end. -/
theorem processAll_keeps_superseded_route :
    let s : Session := { root := ⟨"/p"⟩, configuration := {} }
    let out := s.processAll rebasedMenus (fun _ => false)
      [⟨"/p/src/a.ts"⟩, ⟨"/p/src/m.ts"⟩, ⟨"/p/src/n.ts"⟩]
    ¬ ∀ r ∈ out.2, r.2 ≠ .ok .fresh → r.2 = (out.1.process rebasedMenus true r.1).2 := by
  decide +kernel

end SiteMacros.Session
