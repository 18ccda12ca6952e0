import SiteMacros.Sort
import SiteMacros.Text.Split

/-!
# Paths

A path is the text it was written as. What it names is the list of its
components, in which empty pieces do not count, nor does a `.` anywhere but at
the front of a relative path; `..` stays, because what it steps out of is known
only to a file system. So `/a/`, `/a` and `/a/.` are one path in three
spellings: questions about paths are asked of the components, and a path that is
printed shows the spelling it has.

Paths are ordered by components. That is not the order of their texts: `/a/b`
comes before `/a-b`.
-/

namespace SiteMacros

/-- One step of a path. -/
inductive Component where
  /-- The root of the file system. -/
  | root
  /-- A `.` at the front of a relative path. -/
  | here
  /-- A `..`. -/
  | parent
  | name (text : String)
  deriving DecidableEq, Repr

/-- The place of a component's kind. -/
def Component.rank : Component → Nat
  | .root => 0
  | .here => 1
  | .parent => 2
  | .name _ => 3

/-- The text of a name. -/
def Component.label : Component → String
  | .name text => text
  | _ => ""

/-- Components in order: the root first, then `.`, then `..`, then the names by
their characters. -/
def Component.compare : Component → Component → Ordering :=
  compareLex (compareOn Component.rank) (compareOn Component.label)

instance : Std.TransCmp Component.compare :=
  inferInstanceAs (Std.TransCmp (compareLex (compareOn Component.rank) (compareOn Component.label)))

instance : Std.LawfulEqCmp Component.compare where
  eq_of_compare {a b} h := by
    rw [Component.compare, compareLex_eq_eq] at h
    obtain ⟨hr, hl⟩ := h
    have hr : a.rank = b.rank := Std.LawfulEqCmp.eq_of_compare hr
    have hl : a.label = b.label := Std.LawfulEqCmp.eq_of_compare hl
    cases a <;> cases b <;> simp_all [Component.rank, Component.label]

/-- A path, as it was written. -/
structure Path where
  text : String
  deriving DecidableEq, Repr, Inhabited

namespace Path

/-- Does the path start at the root? -/
def isAbsolute (p : Path) : Bool :=
  match p.text.toList with
  | '/' :: _ => true
  | _ => false

/-- The pieces between slashes, without the slash of the root. Each comes with
the component that it stands for, if it counts. -/
def pieces (p : Path) : List (String × Option Component) :=
  match p.text.toList with
  | '/' :: cs => (Text.pieces '/' cs).map inner
  | cs =>
      match Text.pieces '/' cs with
      | [] => []
      | q :: qs =>
          (if q = ['.'] then (".", some .here) else inner q) :: qs.map inner
where
  /-- A piece that is not at the front of a relative path. -/
  inner (q : List Char) : String × Option Component :=
    let s := String.ofList q
    if s = "" || s = "." then (s, none)
    else if s = ".." then (s, some .parent)
    else (s, some (.name s))

/-- What the path names, step by step. -/
def components (p : Path) : List Component :=
  let steps := p.pieces.filterMap (·.2)
  if p.isAbsolute then .root :: steps else steps

/-- The order of paths: their components in dictionary order. -/
def compare : Path → Path → Ordering :=
  fun p q => List.compareLex Component.compare p.components q.components

instance : Std.TransCmp Path.compare where
  eq_swap {p q} := by
    have h := @Std.OrientedCmp.eq_swap _ (List.compareLex Component.compare) _
    exact @h p.components q.components
  isLE_trans {p q r} := by
    have h := @Std.TransCmp.isLE_trans _ (List.compareLex Component.compare) _
    exact @h p.components q.components r.components

/-- Do two paths have the same components? -/
def same (p q : Path) : Bool :=
  p.components == q.components

theorem same_iff {p q : Path} : p.same q = true ↔ p.components = q.components :=
  beq_iff_eq

/-- Paths that neither comes before the other are one path in two spellings. -/
theorem compare_eq_iff {p q : Path} : p.compare q = .eq ↔ p.components = q.components := by
  have h := @Std.LawfulEqCmp.compare_eq_iff_eq _ (List.compareLex Component.compare) _
  exact @h p.components q.components

theorem same_eq_false_of_compare {p q : Path} (h : p.compare q ≠ .eq) : q.same p = false := by
  refine Bool.eq_false_iff.2 fun hs => h ?_
  exact compare_eq_iff.2 (same_iff.1 hs).symm

/-- Is `p` at or before `q` in the order of paths? -/
def le (p q : Path) : Bool :=
  p.compare q != .gt

theorem le_iff {p q : Path} : p.le q = true ↔ (p.compare q).isLE = true := by
  rw [le]
  cases p.compare q <;> decide

theorem le_total (p q : Path) : p.le q = true ∨ q.le p = true := by
  rw [le_iff, le_iff]
  have hswap : q.compare p = (p.compare q).swap := Std.OrientedCmp.eq_swap
  rw [hswap]
  cases p.compare q <;> simp

theorem le_trans (p q r : Path) (hpq : p.le q = true) (hqr : q.le r = true) : p.le r = true :=
  le_iff.2 (Std.TransCmp.isLE_trans (le_iff.1 hpq) (le_iff.1 hqr))

theorem compare_eq_lt {p q : Path} (hle : p.le q = true) (hne : p.components ≠ q.components) :
    p.compare q = .lt := by
  rw [le, bne_iff_ne] at hle
  cases hcompare : p.compare q with
  | lt => rfl
  | eq => exact absurd (compare_eq_iff.1 hcompare) hne
  | gt => exact absurd hcompare hle

/-- Pieces as the text of a path. -/
def ofPieces (absolute : Bool) (ps : List (String × Option Component)) : Path :=
  ⟨(if absolute then "/" else "") ++ "/".intercalate (ps.map (·.1))⟩

/-- Does a piece not count? -/
def idle (q : String × Option Component) : Bool :=
  q.2.isNone

/-- The path without its last component, or `none` if it has none but the
root. -/
def parent? (p : Path) : Option Path :=
  match (Text.dropEndWhile idle p.pieces).reverse with
  | [] => none
  | _ :: before =>
      some (ofPieces p.isAbsolute (before.dropWhile idle).reverse)

/-- The last component, if it is a name. -/
def fileName? (p : Path) : Option String :=
  match p.components.getLast? with
  | some (.name s) => some s
  | _ => none

/-- The path and the paths around it, from the inside out. -/
def ancestors (p : Path) : List Path :=
  go (p.components.length + 1) p
where
  /-- At most `n` paths, starting with `p`. -/
  go : Nat → Path → List Path
    | 0, _ => []
    | n + 1, p => p :: (match p.parent? with | some q => go n q | none => [])

/-- `q` seen from the directory `p`: an absolute `q` is itself. -/
def join (p : Path) (q : String) : Path :=
  if (Path.mk q).isAbsolute then ⟨q⟩
  else if p.text.isEmpty || Text.endsWith "/" p.text then ⟨p.text ++ q⟩
  else ⟨p.text ++ "/" ++ q⟩

/-- Is `p` at or below `dir`? -/
def startsWith (p dir : Path) : Bool :=
  dir.components.isPrefixOf p.components

/-- Pieces without the first `n` that count. -/
def dropSteps : Nat → List (String × Option Component) →
    List (String × Option Component)
  | 0, ps => ps
  | _ + 1, [] => []
  | n + 1, q :: qs => if idle q then dropSteps (n + 1) qs else dropSteps n qs

/-- The path from `base` to `p`, in the spelling it has in `p`, if `p` is at or
below `base`. -/
def relativeTo? (p base : Path) : Option Path :=
  if p.startsWith base then
    match base.components.length with
    | 0 => some (ofPieces p.isAbsolute (Text.dropEndWhile idle p.pieces))
    | n + 1 =>
        let kept := dropSteps (if p.isAbsolute then n else n + 1) p.pieces
        some (ofPieces false (Text.dropEndWhile idle (kept.dropWhile idle)))
  else none

/-- The part of the file name after its last dot, unless that dot starts the
name. -/
def extension? (p : Path) : Option String := do
  let name ← p.fileName?
  match (Text.pieces '.' name.toList).reverse with
  | [] | [_] => none
  | last :: before =>
      if before = [[]] then none else some (String.ofList last)

/-- Names and `..` steps joined with slashes; the root and a leading `.` are
dropped. -/
def slashed (cs : List Component) : String :=
  "/".intercalate (cs.filterMap fun
    | .name s => some s
    | .parent => some ".."
    | _ => none)

/-- The path as a relative text with slashes. -/
def toSlashed (p : Path) : String :=
  slashed p.components

/-- The common beginning of two lists removed from both. -/
def dropCommon : List Component → List Component → List Component × List Component
  | a :: as, b :: bs => if a = b then dropCommon as bs else (a :: as, b :: bs)
  | as, bs => (as, bs)

end Path

/-- Paths in their order; paths that compare equal keep their places. -/
def sortPaths (ps : List Path) : List Path :=
  sorted Path.le ps

end SiteMacros
