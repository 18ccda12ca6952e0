import Mathlib.Data.List.DropRight
import SiteMacros.Proofs.UrlPaths

/-!
# What a relative path does

A path that is seen from another one takes segments off its end and puts segments of its own
there. How many, and which, is settled by the relative path alone (`Relative.of`): a `..`
takes back the last of its own segments, and if there is none left it is unresolved and goes
on to the path that it is seen from (`foldl_step_relative`).

So the relative paths act on the canonical paths, and putting two of them together with a slash
is acting with one after the other. A route is the same however the prefix and the segments
that it is made of are grouped (`join_grouping`).
-/

namespace SiteMacros.UrlPath

/-- The parts of a path between slashes that are not empty. -/
def segments (path : String) : List String :=
  (Text.split '/' path).filter (· ≠ "")

/-- A canonical path starts with a slash, has no segment that does not count, and ends in a
slash only if it is the root. -/
structure Canonical (path : String) : Prop where
  starts : Text.startsWith "/" path = true
  counts : path ≠ "/" → ∀ s ∈ (Text.split '/' path).tail, s ≠ "" ∧ s ≠ "." ∧ s ≠ ".."
  ends : Text.endsWith "/" path = true → path = "/"

/-- What a path does to the path that it is seen from: it takes so many segments off the end,
and has these of its own, the latest first. -/
structure Relative where
  ups : Nat
  stack : List String
  deriving DecidableEq, Repr

namespace Relative

/-- One segment after those before it. -/
def step (r : Relative) (segment : String) : Relative :=
  if segment = "" || segment = "." then r
  else if segment = ".." then
    match r.stack with
    | [] => ⟨r.ups + 1, []⟩
    | _ :: rest => ⟨r.ups, rest⟩
  else ⟨r.ups, segment :: r.stack⟩

/-- What a path does. Its `ups` are its unresolved `..`. -/
def of (path : String) : Relative :=
  (Text.split '/' path).foldl step ⟨0, []⟩

/-- Its own segments, in order. -/
def names (r : Relative) : List String :=
  r.stack.reverse

end Relative

/-! ## Acting on a stack -/

/-- Segments over a stack leave what they leave over none, on top of what is not taken off. -/
theorem foldl_step_relative (xs stack : List String) :
    xs.foldl step stack =
      (xs.foldl Relative.step ⟨0, []⟩).stack ++
        stack.drop (xs.foldl Relative.step ⟨0, []⟩).ups := by
  induction xs using List.reverseRecOn with
  | nil => rfl
  | append_singleton xs s ih =>
      rw [List.foldl_append, List.foldl_append, ih]
      generalize xs.foldl Relative.step ⟨0, []⟩ = r
      show step (r.stack ++ stack.drop r.ups) s = _
      rw [List.foldl_cons, List.foldl_nil, step, Relative.step]
      split
      · rfl
      · split
        · obtain ⟨ups, own⟩ := r
          cases own with
          | nil => exact List.tail_drop
          | cons t own => rfl
        · rfl

-- of the two `..` the first takes back `c`, and the second is unresolved
example : Relative.of "c/../../d/./e" = ⟨1, ["e", "d"]⟩ := by decide +kernel

/-- Without `..` nothing is taken off, and all segments that count stay. -/
theorem foldl_relative_step {xs : List String} (h : ".." ∉ xs) :
    xs.foldl Relative.step ⟨0, []⟩ =
      ⟨0, ((xs.filter (· ≠ "")).filter (· ≠ ".")).reverse⟩ := by
  induction xs using List.reverseRecOn with
  | nil => rfl
  | append_singleton xs s ih =>
      rw [List.mem_append, not_or, List.mem_singleton] at h
      rw [List.foldl_append, ih h.1, List.foldl_cons, List.foldl_nil, Relative.step,
        List.filter_append, List.filter_append, List.reverse_append]
      by_cases hempty : s = ""
      · subst hempty
        rfl
      · by_cases hdot : s = "."
        · subst hdot
          rfl
        · simp [hempty, hdot, Ne.symm h.2]

/-! ## Segments of canonical paths -/

theorem segments_render {names : List String} (h : ∀ s ∈ names, Path.IsName s) :
    segments (render names) = names := by
  rw [segments, split_render fun s hs => (h s hs).noSlash]
  split
  · next hnil =>
      rw [hnil]
      rfl
  · rw [List.filter_cons_of_neg (by simp), List.filter_eq_self]
    intro s hs
    rw [decide_eq_true_eq]
    exact (h s hs).ne_empty

theorem segments_join (base rel : String) :
    segments (join base rel) = resolve (Text.split '/' base ++ Text.split '/' rel) :=
  segments_render isName_of_mem_resolve

theorem render_segments_join (base rel : String) :
    render (segments (join base rel)) = join base rel := by
  rw [segments_join, join]

theorem segments_normalize (path : String) :
    segments (normalize path) = resolve (Text.split '/' path) := by
  rw [normalize_eq_join, segments_join, resolve, resolve, List.foldl_append,
    show Text.split '/' "" = [""] from rfl, List.foldl_cons, step_empty, List.foldl_nil]

theorem toList_render (names : List String) :
    (render names).toList = '/' :: ['/'].intercalate (names.map String.toList) := by
  rw [render, String.toList_append, String.toList_intercalate]
  rfl

/-- The last piece of a text that ends in a slash is empty. -/
theorem empty_mem_tail_split {path : String} {cs : List Char}
    (h : path.toList = '/' :: (cs ++ ['/'])) : "" ∈ (Text.split '/' path).tail := by
  rw [Text.split, h, Text.pieces, if_pos rfl, Text.pieces_append_sep, List.map_cons,
    List.tail_cons, List.map_append]
  exact List.mem_append_right _ List.mem_cons_self

theorem canonical_render {names : List String} (h : ∀ s ∈ names, Path.IsName s) :
    Canonical (render names) := by
  have hcounts : render names ≠ "/" →
      ∀ s ∈ (Text.split '/' (render names)).tail, s ≠ "" ∧ s ≠ "." ∧ s ≠ ".." := by
    intro hroot s hs
    rw [split_render fun s hs => (h s hs).noSlash, List.tail_cons, if_neg] at hs
    · exact ⟨(h s hs).ne_empty, (h s hs).ne_here, (h s hs).ne_parent⟩
    · rintro rfl
      exact hroot rfl
  refine ⟨?_, hcounts, fun hends => ?_⟩
  · rw [Text.startsWith, toList_render]
    rfl
  · rw [Text.endsWith, List.isPrefixOf_iff_prefix] at hends
    obtain ⟨before, hbefore⟩ := hends
    have hlist : (render names).toList = before.reverse ++ ['/'] := by
      rw [← List.reverse_reverse (render names).toList, ← hbefore, List.reverse_append]
      rfl
    by_contra hroot
    cases hfront : before.reverse with
    | nil =>
        rw [hfront] at hlist
        exact hroot (String.toList_inj.1 hlist)
    | cons c cs =>
        rw [hfront, List.cons_append] at hlist
        have hc : c = '/' := by
          rw [toList_render] at hlist
          exact (List.cons.inj hlist).1.symm
        rw [hc] at hlist
        exact (hcounts hroot "" (empty_mem_tail_split hlist)).1 rfl

/-! ## Joining -/

theorem normalize_join (base rel : String) : normalize (join base rel) = join base rel := by
  have hsegments : segments (normalize (join base rel)) = segments (join base rel) := by
    rw [segments_normalize, segments_join, resolve, resolve, foldl_split_join]
  calc normalize (join base rel)
    _ = render (segments (normalize (join base rel))) := (render_segments_join "/" _).symm
    _ = join base rel := by rw [hsegments, render_segments_join]

/-- A path seen from another takes its unresolved `..` off the end, and adds its own. -/
theorem segments_join_relative (base rel : String) :
    segments (join base rel) =
      (segments (normalize base)).rdrop (Relative.of rel).ups ++ (Relative.of rel).names := by
  rw [segments_join, segments_normalize, resolve, List.foldl_append, foldl_step_relative,
    List.reverse_append, List.rdrop_eq_reverse_drop_reverse, resolve, List.reverse_reverse]
  rfl

/-- Canonical paths are acted on by relative ones: joining makes canonical paths and leaves them
alone, and two paths that are joined one after the other may as well be put together first. A
path without `..` adds its segments; any other takes as many segments off before that as it
has unresolved `..`, and at the root there are none left to take. So a route that is made of a
prefix and segments does not depend on how these are grouped. -/
theorem join_grouping (a b c : String) :
    Canonical (join a b) ∧ normalize (join a b) = join a b ∧
      join (join a b) c = join a (b ++ "/" ++ c) ∧
      (".." ∉ Text.split '/' b →
        segments (join a b) = segments (normalize a) ++ (segments b).filter (· ≠ ".")) ∧
      segments (join a b) =
        (segments (normalize a)).rdrop (Relative.of b).ups ++ (Relative.of b).names ∧
      render (segments (normalize a)) = normalize a ∧ render (segments (join a b)) = join a b ∧
      ∀ parts : List String, parts.foldl join (normalize a) = join a ("/".intercalate parts) := by
  refine ⟨canonical_render isName_of_mem_resolve, normalize_join a b, join_join a b c,
    fun hups => ?_, segments_join_relative a b, render_segments_join "/" a,
    render_segments_join a b, foldl_join a⟩
  rw [segments_join_relative, Relative.of, foldl_relative_step hups, Relative.names,
    List.rdrop_zero, List.reverse_reverse]
  rfl

end SiteMacros.UrlPath
