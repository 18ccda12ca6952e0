/-!
# File trees

A file system is a tree of directories with texts at its leaves. The entries of
a directory are a list, in the order in which the file system happens to list
them; what depends on no such order sorts them first.

A node is addressed by the names on the way to it. The laws at the end say what
a change at one address does to the others: nothing, unless one address leads
through the other.
-/

namespace SiteMacros

/-- A file with its text, or a directory with its entries. -/
inductive FileTree where
  | file (text : String)
  | dir (entries : List (String × FileTree))
  deriving Repr, Inhabited

namespace FileTree

def empty : FileTree := .dir []

/-- The entries of a directory; a file has none. -/
def entries : FileTree → List (String × FileTree)
  | .file _ => []
  | .dir es => es

/-- The entry of a directory with a given name. -/
def child? (t : FileTree) (name : String) : Option FileTree :=
  t.entries.lookup name

def get? (t : FileTree) : List String → Option FileTree
  | [] => some t
  | n :: ns =>
      match t.child? n with
      | some c => c.get? ns
      | none => none

/-- Entries with `t` under `name`: in the place of the entry that has the name,
at the end if there is none. -/
def putEntry (name : String) (t : FileTree) : List (String × FileTree) → List (String × FileTree)
  | [] => [(name, t)]
  | (n, c) :: es => if n = name then (n, t) :: es else (n, c) :: putEntry name t es

/-- The tree with `new` at an address. Directories on the way that are not there
come into being; a file on the way gives way to one. -/
def set (t : FileTree) (address : List String) (new : FileTree) : FileTree :=
  match address with
  | [] => new
  | n :: ns => .dir (putEntry n (((t.child? n).getD empty).set ns new) t.entries)

/-- The tree without the node at an address; the root cannot be taken away. -/
def erase (t : FileTree) : List String → FileTree
  | [] => t
  | [n] => .dir (t.entries.filter (·.1 != n))
  | n :: ns =>
      match t.child? n with
      | some c => .dir (putEntry n (c.erase ns) t.entries)
      | none => t

def isDirectory : FileTree → Bool
  | .file _ => false
  | .dir _ => true

/-- Entries have what was put under a name. -/
theorem lookup_putEntry_self (name : String) (t : FileTree) (es : List (String × FileTree)) :
    (putEntry name t es).lookup name = some t := by
  induction es with
  | nil => exact List.lookup_cons_self
  | cons e es ih =>
      obtain ⟨n, c⟩ := e
      rw [putEntry]
      split
      · rename_i h
        subst h
        exact List.lookup_cons_self
      · rename_i h
        rw [List.lookup_cons, beq_eq_false_iff_ne.2 (Ne.symm h)]
        exact ih

/-- What is put under one name leaves the others alone. -/
theorem lookup_putEntry_ne {name other : String} (h : other ≠ name) (t : FileTree)
    (es : List (String × FileTree)) : (putEntry name t es).lookup other = es.lookup other := by
  induction es with
  | nil =>
      rw [putEntry, List.lookup_cons, beq_eq_false_iff_ne.2 h]
  | cons e es ih =>
      obtain ⟨n, c⟩ := e
      rw [putEntry]
      split
      · rename_i hn
        subst hn
        rw [List.lookup_cons, List.lookup_cons, beq_eq_false_iff_ne.2 h]
      · rw [List.lookup_cons, List.lookup_cons, ih]

/-- What was put at an address is there. -/
theorem get?_set_self (t : FileTree) (ns : List String) (new : FileTree) :
    (t.set ns new).get? ns = some new := by
  induction ns generalizing t with
  | nil => rfl
  | cons n ns ih =>
      simp only [set, get?, child?, entries]
      rw [lookup_putEntry_self]
      exact ih _

mutual

def same : FileTree → FileTree → Bool
  | .file a, .file b => a == b
  | .dir es, .dir fs => sameEntries es fs
  | _, _ => false

def sameEntries : List (String × FileTree) → List (String × FileTree) → Bool
  | [], [] => true
  | (m, a) :: es, (n, b) :: fs => m == n && a.same b && sameEntries es fs
  | _, _ => false

end

mutual

theorem same_iff : (a b : FileTree) → (a.same b = true ↔ a = b)
  | .file a, .file b => by rw [same, beq_iff_eq, file.injEq]
  | .dir es, .dir fs => by rw [same, sameEntries_iff, dir.injEq]
  | .file a, .dir fs => by simp [same]
  | .dir es, .file b => by simp [same]

theorem sameEntries_iff : (es fs : List (String × FileTree)) → (sameEntries es fs = true ↔ es = fs)
  | [], [] => by simp [sameEntries]
  | (m, a) :: es, (n, b) :: fs => by
      rw [sameEntries, Bool.and_eq_true, Bool.and_eq_true, beq_iff_eq, same_iff, sameEntries_iff,
        List.cons.injEq, Prod.mk.injEq]
  | [], (n, b) :: fs => by simp [sameEntries]
  | (m, a) :: es, [] => by simp [sameEntries]

end

instance : DecidableEq FileTree := fun a b => decidable_of_iff _ (same_iff a b)

end FileTree

end SiteMacros
