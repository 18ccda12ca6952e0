import SiteMacros.Proofs.Alike
import SiteMacros.Proofs.Destinations

/-!
# Walks in two file trees

A path that a piece is joined to is walked as the path is, and then one step further
(`reach_join`). So two file trees that hold the same at and below an address walk the
same from there, as long as no step leads out again: what is there in one is there in the
other, at the same address (`Shared.join`). Whether a walk can lead out is a matter of how
many names it is below the address, and `deeper` counts them.
-/

namespace SiteMacros

open FileTree (stepOf)

namespace FileTree

/-! ## The walk along a path -/

/-- Where the pieces of a path lead. Unlike an address it is there for the empty path,
which stays at the root. -/
def reach (t : FileTree) (p : Path) : Except FileFault (List String) :=
  t.walk [] (steps p)

theorem steps_eq {p : Path} (h : p.text ≠ "") :
    steps p = (Text.pieces '/' p.text.toList).map String.ofList := by
  rw [steps, if_neg (by rwa [String.isEmpty_iff])]
  rfl

theorem address_eq_reach {t : FileTree} {p : Path} (h : p.text ≠ "") :
    t.address p = t.reach p := by
  rw [address, reach]
  split
  · next hnil =>
      rw [steps_eq h, List.map_eq_nil_iff] at hnil
      exact absurd hnil (Text.pieces_ne_nil _ _)
  · rfl

theorem walk_append (t : FileTree) (here ps qs : List String) :
    t.walk here (ps ++ qs) = (t.walk here ps).bind (t.walk · qs) := by
  induction ps generalizing here with
  | nil => rfl
  | cons q ps ih =>
      rw [List.cons_append, walk, walk]
      split
      · rfl
      · rfl
      · simp only [ih]
        split
        · rfl
        · split
          · rfl
          · split <;> rfl

theorem isSome_of_walk {t : FileTree} {here dest ps : List String} (h : t.walk here ps = .ok dest)
    (hhere : (t.get? here).isSome = true) : (t.get? dest).isSome = true := by
  induction ps generalizing here with
  | nil =>
      cases h
      exact hhere
  | cons q ps ih =>
      rw [walk] at h
      split at h
      · cases h
      · cases h
      · next es hes =>
          split at h
          · exact ih h hhere
          · split at h
            · refine ih h ?_
              -- a node that is there has the nodes around it around it
              cases here using List.reverseRecOn with
              | nil => rfl
              | append_singleton ns n =>
                  rw [List.dropLast_concat]
                  obtain ⟨es', hes'⟩ := exists_dir_of_get?_append (List.cons_ne_nil n []) hes
                  rw [hes']
                  rfl
            · split at h
              · cases h
              · next node hnode => exact ih h (by rw [hnode]; rfl)

theorem exists_of_reach {t : FileTree} {p : Path} {here : List String} (h : t.reach p = .ok here) :
    ∃ node, t.get? here = some node :=
  Option.isSome_iff_exists.1 (isSome_of_walk h rfl)

theorem find_of_reach {t node : FileTree} {p : Path} {here : List String} (hp : p.text ≠ "")
    (h : t.reach p = .ok here) (hnode : t.get? here = some node) : t.find p = .ok node := by
  rw [find, address_eq_reach hp, h]
  dsimp only [bind, Except.bind]
  rw [hnode]

theorem find_empty (t : FileTree) : t.find ⟨""⟩ = .error .notFound := rfl

/-- What is found at a path is at the address that its pieces lead to. -/
theorem reach_of_find {t node : FileTree} {p : Path} (h : t.find p = .ok node) :
    p.text ≠ "" ∧ ∃ here, t.reach p = .ok here ∧ t.get? here = some node := by
  have hp : p.text ≠ "" := by
    intro hempty
    obtain ⟨text⟩ := p
    cases hempty
    rw [find_empty] at h
    cases h
  obtain ⟨here, hhere, hget⟩ := Expansion.exists_of_bind_eq_ok h
  rw [address_eq_reach hp] at hhere
  refine ⟨hp, here, hhere, ?_⟩
  split at hget
  · next c hc =>
      cases hget
      exact hc
  · cases hget

theorem exists?_iff {t : FileTree} {p : Path} (hp : p.text ≠ "") :
    t.exists? p = true ↔ ∃ here, t.reach p = .ok here := by
  rw [exists?]
  constructor
  · intro h
    split at h
    · next node hnode =>
        obtain ⟨-, here, hhere, -⟩ := reach_of_find hnode
        exact ⟨here, hhere⟩
    · cases h
  · rintro ⟨here, hhere⟩
    obtain ⟨node, hnode⟩ := exists_of_reach hhere
    rw [find_of_reach hp hhere hnode]

/-! ## One step further -/

theorem text_join_ne_empty {p : Path} {piece : String} (hpiece : '/' ∉ piece.toList)
    (h : p.text ≠ "" ∨ piece ≠ "") : (p.join piece).text ≠ "" := by
  have habs : (Path.mk piece).isAbsolute = false := by
    rw [Bool.eq_false_iff, ne_eq, Path.isAbsolute_iff]
    rintro ⟨cs, hcs⟩
    exact hpiece (hcs ▸ List.mem_cons_self)
  rw [Path.join, if_neg (by rw [habs]; exact Bool.false_ne_true)]
  split
  · intro hempty
    obtain ⟨hp, hq⟩ := String.append_eq_empty_iff.1 hempty
    exact h.elim (· hp) (· hq)
  · intro hempty
    have hslash := (String.append_eq_empty_iff.1 (String.append_eq_empty_iff.1 hempty).1).2
    revert hslash
    decide

/-- The pieces of a joined path are those of the path and those of what is joined to it,
where an empty piece at the end of the path is lost. -/
theorem steps_join_relative {p : Path} (hp : p.text ≠ "") {q : String}
    (habs : (Path.mk q).isAbsolute = false) :
    ∃ before, before ≠ [] ∧ steps (p.join q) = before ++ Text.split '/' q ∧
      (steps p = before ∨ steps p = before ++ [""]) := by
  have hjoin : (p.join q).text ≠ "" := by
    rw [Path.join, if_neg (by rw [habs]; exact Bool.false_ne_true)]
    split
    · exact fun hempty => hp (String.append_eq_empty_iff.1 hempty).1
    · exact fun hempty =>
        hp (String.append_eq_empty_iff.1 (String.append_eq_empty_iff.1 hempty).1).1
  rw [steps_eq hp, steps_eq hjoin, Path.join, if_neg (by rw [habs]; exact Bool.false_ne_true)]
  split
  · next hend =>
      have hslash : Text.endsWith "/" p.text = true := by
        rw [Bool.or_eq_true] at hend
        exact hend.resolve_left fun hempty => hp (String.isEmpty_iff.1 hempty)
      obtain ⟨ds, hds⟩ := Path.toList_of_endsWith hslash
      refine ⟨(Text.pieces '/' ds).map String.ofList, ?_, ?_, .inr ?_⟩
      · exact fun hnil => Text.pieces_ne_nil '/' ds (List.map_eq_nil_iff.1 hnil)
      · show (Text.pieces '/' (p.text ++ q).toList).map String.ofList = _
        have htext : (p.text ++ q).toList = ds ++ '/' :: q.toList := by
          rw [String.toList_append, hds]
          simp
        rw [htext, Text.pieces_append_sep, List.map_append]
        rfl
      · have htext : p.text.toList = ds ++ '/' :: [] := hds
        rw [htext, Text.pieces_append_sep, List.map_append]
        rfl
  · refine ⟨(Text.pieces '/' p.text.toList).map String.ofList, ?_, ?_, .inl rfl⟩
    · exact fun hnil => Text.pieces_ne_nil '/' _ (List.map_eq_nil_iff.1 hnil)
    · show (Text.pieces '/' (p.text ++ "/" ++ q).toList).map String.ofList = _
      have htext : (p.text ++ "/" ++ q).toList = p.text.toList ++ '/' :: q.toList := by
        rw [String.toList_append, String.toList_append]
        simp
      rw [htext, Text.pieces_append_sep, List.map_append]
      rfl

/-- A piece that is joined to a path comes last. -/
theorem steps_join {p : Path} (hp : p.text ≠ "") {piece : String} (hpiece : '/' ∉ piece.toList) :
    ∃ before, before ≠ [] ∧ steps (p.join piece) = before ++ [piece] ∧
      (steps p = before ∨ steps p = before ++ [""]) := by
  have habs : (Path.mk piece).isAbsolute = false := by
    rw [Bool.eq_false_iff, ne_eq, Path.isAbsolute_iff]
    rintro ⟨cs, hcs⟩
    exact hpiece (hcs ▸ List.mem_cons_self)
  have hlast : Text.split '/' piece = [piece] := by
    rw [Text.split, Text.pieces_of_not_mem hpiece, List.map_singleton, String.ofList_toList]
  rw [← hlast]
  exact steps_join_relative hp habs

theorem steps_join_empty {piece : String} (h : piece ≠ "") (hpiece : '/' ∉ piece.toList) :
    Path.join ⟨""⟩ piece = ⟨piece⟩ ∧ steps (Path.join ⟨""⟩ piece) = [piece] := by
  have hjoin : Path.join ⟨""⟩ piece = ⟨piece⟩ := by
    rw [Path.join]
    split
    · rfl
    · show Path.mk ("" ++ piece) = _
      rw [String.empty_append]
  refine ⟨hjoin, ?_⟩
  rw [hjoin, steps_eq h, Text.pieces_of_not_mem hpiece, List.map_singleton, String.ofList_toList]

theorem reach_join {t : FileTree} {p : Path} {piece : String} (hpiece : '/' ∉ piece.toList)
    (h : p.text ≠ "" ∨ piece ≠ "") :
    t.reach (p.join piece) = (t.reach p).bind (t.walk · [piece]) := by
  by_cases hp : p.text = ""
  · obtain ⟨text⟩ := p
    cases hp
    rw [reach, (steps_join_empty (h.resolve_left fun hne => hne rfl) hpiece).2]
    rfl
  · obtain ⟨before, -, hjoin, hsteps⟩ := steps_join hp hpiece
    rw [reach, hjoin, walk_append, reach]
    rcases hsteps with hsteps | hsteps
    · rw [hsteps]
    · rw [hsteps, walk_append]
      cases t.walk [] before with
      | error e => rfl
      | ok here =>
          -- the empty piece asks for a directory, and so does the next one
          show t.walk here [piece] = (t.walk here [""]).bind (t.walk · [piece])
          rw [← walk_append]
          rcases hget : t.get? here with _ | (text | es) <;> simp [walk, hget]

/-- The components that the first piece of a path stands for. -/
def front (piece : String) : List Component :=
  if piece = "" then [.root] else if piece = "." then [.here] else (stepOf piece).toList

theorem filterMap_inner (qs : List (List Char)) :
    (qs.map Path.pieces.inner).filterMap (·.2) = (qs.map String.ofList).filterMap stepOf := by
  rw [List.filterMap_map, List.filterMap_map]
  refine congrArg (List.filterMap · _) (funext fun q => ?_)
  show (Path.pieces.inner q).2 = (Path.pieces.inner (String.ofList q).toList).2
  rw [String.toList_ofList]

theorem first_piece_ne_nil {p : Path} (hp : p.text ≠ "") (habs : p.isAbsolute = false)
    {q : List Char} {qs : List (List Char)} (h : Text.pieces '/' p.text.toList = q :: qs) :
    q ≠ [] := by
  rintro rfl
  cases htext : p.text.toList with
  | nil => exact hp (String.toList_eq_nil_iff.1 htext)
  | cons c cs =>
      rw [htext, Text.pieces] at h
      split at h
      · next hslash =>
          rw [Bool.eq_false_iff, ne_eq, Path.isAbsolute_iff] at habs
          exact habs ⟨cs, by rw [htext, hslash]⟩
      · split at h <;> cases h

theorem front_ofList {q : List Char} (h : q ≠ []) :
    front (String.ofList q) = (Path.first q).2.toList := by
  have hempty : String.ofList q ≠ "" := by
    intro heq
    exact h (String.ofList_eq_empty_iff.1 heq)
  have hdot : String.ofList q = "." ↔ q = ['.'] := by
    rw [← String.toList_inj, String.toList_ofList]
    rfl
  rw [front, if_neg hempty, stepOf, String.toList_ofList, Path.first]
  by_cases h : q = ['.'] <;> simp [h, hdot]

theorem components_of_steps {p : Path} {piece : String} {rest : List String}
    (h : steps p = piece :: rest) : p.components = front piece ++ rest.filterMap stepOf := by
  have hp : p.text ≠ "" := by
    intro hempty
    rw [steps, hempty] at h
    cases h
  rw [steps_eq hp] at h
  cases habs : p.isAbsolute with
  | true =>
      obtain ⟨cs, hcs⟩ := p.isAbsolute_iff.1 habs
      rw [hcs, Text.pieces, if_pos rfl] at h
      obtain ⟨rfl, rfl⟩ := List.cons.inj h
      rw [Path.components, habs, if_pos rfl, Path.pieces_absolute hcs, filterMap_inner]
      rfl
  | false =>
      obtain ⟨q, qs, hq⟩ := List.exists_cons_of_ne_nil (Text.pieces_ne_nil '/' p.text.toList)
      rw [hq] at h
      obtain ⟨rfl, rfl⟩ := List.cons.inj h
      rw [Path.components, habs, if_neg Bool.false_ne_true, Path.pieces_relative habs hq,
        List.filterMap_cons, filterMap_inner, front_ofList (first_piece_ne_nil hp habs hq)]
      cases (Path.first q).2 <;> rfl

theorem components_join {p : Path} {piece : String} (hpiece : '/' ∉ piece.toList)
    (h : p.text ≠ "" ∨ piece ≠ "" ∧ piece ≠ ".") :
    (p.join piece).components = p.components ++ (stepOf piece).toList := by
  by_cases hp : p.text = ""
  · obtain ⟨text⟩ := p
    cases hp
    obtain ⟨hempty, hdot⟩ := h.resolve_left fun hne => hne rfl
    rw [components_of_steps (steps_join_empty hempty hpiece).2, front, if_neg hempty, if_neg hdot]
    exact List.append_nil _
  · obtain ⟨before, hbefore, hjoin, hsteps⟩ := steps_join hp hpiece
    obtain ⟨first, rest, rfl⟩ := List.exists_cons_of_ne_nil hbefore
    have hlast : [piece].filterMap stepOf = (stepOf piece).toList := by
      rw [List.filterMap_cons]
      cases stepOf piece <;> rfl
    rw [List.cons_append] at hjoin hsteps
    rw [components_of_steps hjoin, List.filterMap_append, hlast, ← List.append_assoc]
    rcases hsteps with hsteps | hsteps
    · rw [components_of_steps hsteps]
    · have hidle : [""].filterMap stepOf = [] := rfl
      rw [components_of_steps hsteps, List.filterMap_append, hidle, List.append_nil]

/-! ## One step of a walk -/

theorem stepOf_up : stepOf ".." = some .parent := by decide

theorem stepOf_eq_some {piece : String} {c : Component} (h : stepOf piece = some c) :
    piece = ".." ∧ c = .parent ∨ (piece ≠ "" ∧ piece ≠ "." ∧ piece ≠ "..") ∧ c = .name piece := by
  by_cases hidle : piece = "" ∨ piece = "."
  · rw [stepOf_of_idle hidle] at h
    cases h
  · rw [not_or] at hidle
    by_cases hup : piece = ".."
    · subst hup
      exact .inl ⟨rfl, Option.some.inj (h.symm.trans stepOf_up)⟩
    · rw [stepOf_of_name hidle.1 hidle.2 hup] at h
      exact .inr ⟨⟨hidle.1, hidle.2, hup⟩, (Option.some.inj h).symm⟩

theorem stepOf_inj {p q : String} {c : Component} (hp : stepOf p = some c)
    (hq : stepOf q = some c) : p = q := by
  rcases stepOf_eq_some hp with ⟨rfl, rfl⟩ | ⟨-, rfl⟩
  · rcases stepOf_eq_some hq with ⟨rfl, -⟩ | ⟨-, hc⟩
    · rfl
    · cases hc
  · rcases stepOf_eq_some hq with ⟨-, hc⟩ | ⟨-, hc⟩
    · cases hc
    · exact Component.name.inj hc

theorem idle_of_stepOf {piece : String} (h : stepOf piece = none) : piece = "" ∨ piece = "." := by
  by_contra hcounts
  rw [not_or] at hcounts
  by_cases hup : piece = ".."
  · rw [hup, stepOf_up] at h
    cases h
  · rw [stepOf_of_name hcounts.1 hcounts.2 hup] at h
    cases h

section

variable {t t' : FileTree} {cs : List Component} {here home ns : List String} {piece : String}

theorem walk_of_not_dir (h : ∀ es, t.get? here ≠ some (.dir es)) (dest : List String) :
    t.walk here [piece] ≠ .ok dest := by
  intro hwalk
  rw [walk] at hwalk
  split at hwalk
  · cases hwalk
  · cases hwalk
  · next es hes => exact h es hes

theorem walk_idle {es : List (String × FileTree)} (h : t.get? here = some (.dir es))
    (hidle : piece = "" ∨ piece = ".") : t.walk here [piece] = .ok here := by
  simp [walk, h, hidle]

theorem walk_up {es : List (String × FileTree)} (h : t.get? here = some (.dir es)) :
    t.walk here [".."] = .ok here.dropLast := by
  simp [walk, h]

theorem walk_name {es : List (String × FileTree)} (h : t.get? here = some (.dir es))
    (hempty : piece ≠ "") (hdot : piece ≠ ".") (hup : piece ≠ "..") :
    t.walk here [piece] =
      if (t.get? (here ++ [piece])).isSome then .ok (here ++ [piece]) else .error .notFound := by
  cases hget : t.get? (here ++ [piece]) <;> simp [walk, h, hempty, hdot, hup, hget]

/-- Stepping to `.` or `..` asks for no more than a directory. -/
theorem exists?_join_dots {p : Path} (hp : p.text ≠ "") (h : piece = "." ∨ piece = "..") :
    t.exists? (p.join piece) = t.isDir p := by
  have hslash : '/' ∉ piece.toList := by
    rcases h with rfl | rfl <;> decide
  rw [Bool.eq_iff_iff, exists?_iff (text_join_ne_empty hslash (.inl hp)),
    reach_join hslash (.inl hp), isDir]
  constructor
  · rintro ⟨dest, hdest⟩
    cases hreach : t.reach p with
    | error e =>
        rw [hreach] at hdest
        cases hdest
    | ok here =>
        rw [hreach] at hdest
        obtain ⟨node, hnode⟩ := exists_of_reach hreach
        rw [find_of_reach hp hreach hnode]
        cases node with
        | dir es => rfl
        | file text =>
            refine absurd hdest (walk_of_not_dir (fun es hes => ?_) dest)
            rw [hnode] at hes
            cases hes
  · intro hdir
    split at hdir
    · next es hes =>
        obtain ⟨-, here, hhere, hget⟩ := reach_of_find hes
        rw [hhere]
        rcases h with rfl | rfl
        · exact ⟨here, walk_idle hget (.inr rfl)⟩
        · exact ⟨here.dropLast, walk_up hget⟩
    · cases hdir

/-! ## Two trees at once -/

/-- The trees hold the same at and below an address. -/
def SameBelow (t t' : FileTree) (home : List String) : Prop :=
  ∀ ns, (t.get? (home ++ ns)).map bare = (t'.get? (home ++ ns)).map bare

/-- The path is in both trees, at one address, and goes on from the components `cs`. -/
structure Shared (t t' : FileTree) (cs : List Component) (here : List String) (p : Path) :
    Prop where
  text_ne : p.text ≠ ""
  left : t.reach p = .ok here
  right : t'.reach p = .ok here
  below : cs <+: p.components

theorem AgreeBelow.shared {d : Path} (h : t.AgreeBelow t' d) :
    ∃ home, Shared t t' d.components home d ∧ SameBelow t t' home := by
  obtain ⟨node, node', hnode, hnode', halike⟩ := h
  obtain ⟨hd, home, hhome, hget⟩ := reach_of_find hnode
  obtain ⟨-, home', hhome', hget'⟩ := reach_of_find hnode'
  have heq : home' = home := (walk_eq_follow hhome').trans (walk_eq_follow hhome).symm
  subst heq
  refine ⟨home', ⟨hd, hhome, hhome', List.prefix_refl _⟩, fun ns => ?_⟩
  rw [get?_append, get?_append, hget, hget']
  exact halike ns

/-- What is at an address below is alike in both trees. -/
theorem SameBelow.exists_alike (h : SameBelow t t' home) {node : FileTree}
    (hnode : t.get? (home ++ ns) = some node) :
    ∃ node', t'.get? (home ++ ns) = some node' ∧ node.Alike node' := by
  have hthere := h ns
  rw [hnode] at hthere
  obtain ⟨node', hnode', -⟩ := Option.map_eq_some_iff.1 hthere.symm
  refine ⟨node', hnode', fun ms => ?_⟩
  have hbelow := h (ns ++ ms)
  rwa [← List.append_assoc, get?_append t (home ++ ns), get?_append t' (home ++ ns), hnode,
    hnode'] at hbelow

theorem SameBelow.isSome_eq (h : SameBelow t t' home) (ns : List String) :
    (t.get? (home ++ ns)).isSome = (t'.get? (home ++ ns)).isSome := by
  have hthere := congrArg Option.isSome (h ns)
  rwa [Option.isSome_map, Option.isSome_map] at hthere

theorem Shared.find {p : Path} (hp : Shared t t' cs (home ++ ns) p) (h : SameBelow t t' home) :
    ∃ node node', t.get? (home ++ ns) = some node ∧ t'.get? (home ++ ns) = some node' ∧
      t.find p = .ok node ∧ t'.find p = .ok node' ∧ node.Alike node' := by
  obtain ⟨node, hnode⟩ := exists_of_reach hp.left
  obtain ⟨node', hnode', halike⟩ := h.exists_alike hnode
  exact ⟨node, node', hnode, hnode', find_of_reach hp.text_ne hp.left hnode,
    find_of_reach hp.text_ne hp.right hnode', halike⟩

theorem Shared.isDir_eq {p : Path} (hp : Shared t t' cs (home ++ ns) p) (h : SameBelow t t' home) :
    t'.isDir p = t.isDir p := by
  obtain ⟨node, node', -, -, hfind, hfind', halike⟩ := hp.find h
  have hkind := halike.isDirectory_eq
  rw [isDir, isDir, hfind, hfind']
  cases node <;> cases node' <;> simp_all [isDirectory]

theorem Shared.isFile_eq {p : Path} (hp : Shared t t' cs (home ++ ns) p) (h : SameBelow t t' home) :
    t'.isFile p = t.isFile p := by
  obtain ⟨node, node', -, -, hfind, hfind', halike⟩ := hp.find h
  have hkind := halike.isDirectory_eq
  rw [isFile, isFile, hfind, hfind']
  cases node <;> cases node' <;> simp_all [isDirectory]

/-- How many names below an address a walk is after a piece, if it is `depth` names below
before it; `none` if it may have led out. -/
def deeper (depth : Nat) (piece : String) : Option Nat :=
  match stepOf piece with
  | none => some depth
  | some .parent => if depth = 0 then none else some (depth - 1)
  | some _ => some (depth + 1)

/-- From an address below, a piece is walked the same in both trees. -/
theorem SameBelow.walk_eq (h : SameBelow t t' home) (ns : List String) (piece : String) :
    t'.walk (home ++ ns) [piece] = t.walk (home ++ ns) [piece] := by
  cases hget : t.get? (home ++ ns) with
  | none =>
      have hthere := h ns
      rw [hget] at hthere
      have hget' := Option.map_eq_none_iff.1 hthere.symm
      simp [FileTree.walk, hget, hget']
  | some node =>
      obtain ⟨node', hget', halike⟩ := h.exists_alike hget
      cases node with
      | file text =>
          rw [halike.eq_file] at hget'
          simp [FileTree.walk, hget, hget']
      | dir es =>
          obtain ⟨fs, rfl⟩ := halike.eq_dir
          by_cases hidle : piece = "" ∨ piece = "."
          · rw [walk_idle hget hidle, walk_idle hget' hidle]
          · rw [not_or] at hidle
            by_cases hup : piece = ".."
            · rw [hup, walk_up hget, walk_up hget']
            · rw [walk_name hget hidle.1 hidle.2 hup, walk_name hget' hidle.1 hidle.2 hup,
                List.append_assoc, h.isSome_eq]

/-- A piece that does not lead out ends below the address. -/
theorem exists_below_of_walk {depth k : Nat} (hdepth : depth ≤ ns.length)
    (hk : deeper depth piece = some k) {dest : List String}
    (h : t.walk (home ++ ns) [piece] = .ok dest) : ∃ ms, k ≤ ms.length ∧ dest = home ++ ms := by
  have hdest := walk_eq_follow h
  rw [deeper] at hk
  cases hstep : stepOf piece with
  | none =>
      rw [hstep] at hk
      rw [List.filterMap_cons_none hstep] at hdest
      cases hk
      exact ⟨ns, hdepth, hdest⟩
  | some c =>
      rw [hstep] at hk
      rw [List.filterMap_cons_some hstep] at hdest
      rcases stepOf_eq_some hstep with ⟨-, rfl⟩ | ⟨-, rfl⟩
      · dsimp only at hk
        split at hk
        · cases hk
        · cases hk
          have hns : ns ≠ [] := by
            rintro rfl
            simp at hdepth
            omega
          refine ⟨ns.dropLast, ?_, ?_⟩
          · rw [List.length_dropLast]
            omega
          · rw [hdest, ← List.dropLast_append_of_ne_nil hns]
            rfl
      · cases hk
        refine ⟨ns ++ [piece], ?_, ?_⟩
        · simp
          omega
        · rw [hdest, ← List.append_assoc]
          rfl

/-- A path is in both trees or in neither one step on. -/
theorem Shared.join {p : Path} (hp : Shared t t' cs (home ++ ns) p) (h : SameBelow t t' home)
    (hpiece : '/' ∉ piece.toList) {depth k : Nat} (hdepth : depth ≤ ns.length)
    (hk : deeper depth piece = some k) :
    t'.exists? (p.join piece) = t.exists? (p.join piece) ∧
      (t.exists? (p.join piece) = true →
        ∃ ms, k ≤ ms.length ∧ Shared t t' cs (home ++ ms) (p.join piece)) := by
  have hsame := h.walk_eq ns piece
  have hne := text_join_ne_empty hpiece (.inl hp.text_ne)
  have hbelow : cs <+: (p.join piece).components := by
    rw [components_join hpiece (.inl hp.text_ne)]
    exact hp.below.trans (List.prefix_append _ _)
  have hleft : t.reach (p.join piece) = t.walk (home ++ ns) [piece] := by
    rw [reach_join hpiece (.inl hp.text_ne), hp.left]
    rfl
  have hright : t'.reach (p.join piece) = t.walk (home ++ ns) [piece] := by
    rw [reach_join hpiece (.inl hp.text_ne), hp.right, ← hsame]
    rfl
  constructor
  · rw [Bool.eq_iff_iff, exists?_iff hne, exists?_iff hne, hleft, hright]
  · intro hexists
    obtain ⟨dest, hdest⟩ := (exists?_iff hne).1 hexists
    rw [hleft] at hdest
    obtain ⟨ms, hms, rfl⟩ := exists_below_of_walk hdepth hk hdest
    exact ⟨ms, hms, hne, hleft.trans hdest, hright.trans hdest, hbelow⟩

/-- A name that is there is there in both trees. -/
theorem Shared.join_name {p : Path} (hp : Shared t t' cs (home ++ ns) p) (h : SameBelow t t' home)
    {name : String} (hname : Path.IsName name)
    (hthere : (t.get? (home ++ (ns ++ [name]))).isSome = true) :
    Shared t t' cs (home ++ (ns ++ [name])) (p.join name) := by
  have hwalk : ∀ {u : FileTree}, u.reach p = .ok (home ++ ns) →
      (u.get? (home ++ (ns ++ [name]))).isSome = true →
      u.reach (p.join name) = .ok (home ++ (ns ++ [name])) := by
    intro u hu hsome
    obtain ⟨node, hnode⟩ := Option.isSome_iff_exists.1 hsome
    rw [← List.append_assoc] at hnode
    obtain ⟨es, hes⟩ := exists_dir_of_get?_append (List.cons_ne_nil name []) hnode
    rw [reach_join hname.noSlash (.inl hp.text_ne), hu]
    show u.walk (home ++ ns) [name] = _
    rw [walk_name hes hname.ne_empty hname.ne_here hname.ne_parent, List.append_assoc, hsome,
      if_pos rfl]
  refine ⟨text_join_ne_empty hname.noSlash (.inl hp.text_ne), hwalk hp.left hthere,
    hwalk hp.right (by rwa [← h.isSome_eq]), ?_⟩
  rw [components_join hname.noSlash (.inl hp.text_ne)]
  exact hp.below.trans (List.prefix_append _ _)

end

end FileTree

end SiteMacros
