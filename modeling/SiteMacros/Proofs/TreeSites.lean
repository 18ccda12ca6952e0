import Mathlib.Data.List.Basic
import Mathlib.Data.List.Pairwise
import SiteMacros.Proofs.FoundCalls

/-!
# Trees and their sites

A visit goes through the sites of a tree one after another and knows nothing of the tree.
What it can conclude from spans holds because the tree is laid out: what a node consists of
has its place within the node, and the parts of one node are apart (`Node.LaidOut`). Then a
site that is visited later is apart from the earlier one, unless the earlier one is a call;
and then it is within the call, and apart from its callee unless it is the callee
(`Node.LaidOut.follows`).

Words are left out of this. They stand for tokens that hold no name, and a construct may
have one that is not at its place, or that is at the place of a name as well.
-/

namespace SiteMacros.Script

/-! ## Parts -/

namespace Node

/-- What a node consists of. -/
def parts : Node → List Node
  | .call _ callee typeArgs args => callee :: (typeArgs ++ args)
  | .importDeclaration _ bindings => bindings
  | .group _ _ parts => parts
  | .reference _ _ | .binding _ _ | .string _ _ | .word _ _ => []

/-- Is a node another one, or a part of it, or of a part, and so on? -/
inductive Has : Node → Node → Prop
  | self (n : Node) : Has n n
  | part {n p m : Node} (hp : p ∈ n.parts) (h : Has p m) : Has n m

theorem Has.trans {n m l : Node} (h : n.Has m) (h' : m.Has l) : n.Has l := by
  induction h with
  | self => exact h'
  | part hp _ ih => exact .part hp (ih h')

theorem Has.cases_part {n m : Node} (h : n.Has m) : m = n ∨ ∃ p ∈ n.parts, p.Has m := by
  cases h with
  | self => exact .inl rfl
  | part hp h => exact .inr ⟨_, hp, h⟩

theorem sizeOf_lt_of_mem_parts {n p : Node} (h : p ∈ n.parts) : sizeOf p < sizeOf n := by
  cases n with
  | call s callee typeArgs args =>
      rw [parts, List.mem_cons, List.mem_append] at h
      rw [call.sizeOf_spec]
      rcases h with rfl | h | h
      · omega
      · have := List.sizeOf_lt_of_mem h
        omega
      · have := List.sizeOf_lt_of_mem h
        omega
  | importDeclaration d bindings =>
      have : sizeOf p < sizeOf bindings := List.sizeOf_lt_of_mem h
      rw [importDeclaration.sizeOf_spec]
      omega
  | group k s ps =>
      have : sizeOf p < sizeOf ps := List.sizeOf_lt_of_mem h
      rw [group.sizeOf_spec]
      omega
  | reference | binding | string | word => exact nomatch h

/-- What holds of a node if it holds of its parts holds of all nodes. -/
theorem inductOn {motive : Node → Prop} (node : ∀ n, (∀ p ∈ n.parts, motive p) → motive n)
    (n : Node) : motive n :=
  node n fun p _ => inductOn node p
termination_by sizeOf n
decreasing_by exact sizeOf_lt_of_mem_parts ‹_›

mutual

/-- A node and all that it has, in the order of a visit. -/
def nodes : Node → List Node
  | .call s callee typeArgs args =>
      .call s callee typeArgs args :: (callee.nodes ++ (nodesIn typeArgs ++ nodesIn args))
  | .importDeclaration d bindings => .importDeclaration d bindings :: nodesIn bindings
  | .group k s parts => .group k s parts :: nodesIn parts
  | .reference s name => [.reference s name]
  | .binding s name => [.binding s name]
  | .string s value => [.string s value]
  | .word s text => [.word s text]

/-- All that nodes have. -/
def nodesIn : List Node → List Node
  | [] => []
  | n :: ns => n.nodes ++ nodesIn ns

end

theorem nodesIn_eq (ns : List Node) : nodesIn ns = ns.flatMap nodes := by
  induction ns with
  | nil => rfl
  | cons n ns ih => rw [nodesIn, ih, List.flatMap_cons]

theorem nodes_eq (n : Node) : n.nodes = n :: n.parts.flatMap nodes := by
  cases n <;> simp [nodes, parts, nodesIn_eq]

theorem mem_nodes_iff {n m : Node} : m ∈ n.nodes ↔ n.Has m := by
  induction n using inductOn generalizing m with
  | node n ih =>
      rw [nodes_eq, List.mem_cons, List.mem_flatMap]
      constructor
      · rintro (rfl | ⟨p, hp, hm⟩)
        · exact .self _
        · exact .part hp ((ih p hp).1 hm)
      · intro h
        rcases h.cases_part with rfl | ⟨p, hp, hm⟩
        · exact .inl rfl
        · exact .inr ⟨p, hp, (ih p hp).2 hm⟩

/-! ## Layout -/

def isWord : Node → Bool
  | .word _ _ => true
  | _ => false

/-- The parts of a node that have a place of their own in it. Of a construct these are all but
its words. -/
def placedParts : Node → List Node
  | .group _ _ parts => parts.filter (!·.isWord)
  | n => n.parts

theorem mem_parts_of_placed {n p : Node} (h : p ∈ n.placedParts) : p ∈ n.parts := by
  cases n with
  | group k s ps => exact (List.mem_filter.1 h).1
  | _ => exact h

/-- The nodes of a tree have their places within those of the nodes that they are parts of,
parts of one node are apart, and no name is empty. -/
structure LaidOut (tree : Node) : Prop where
  within : ∀ n, tree.Has n → ∀ p ∈ n.placedParts, n.span.covers p.span = true
  apart : ∀ n, tree.Has n → n.placedParts.Pairwise fun a b => a.span.Apart b.span
  named : ∀ s name, tree.Has (.reference s name) → s.start < s.stop

theorem LaidOut.of_has {tree n : Node} (h : tree.LaidOut) (hn : tree.Has n) : n.LaidOut where
  within m hm := h.within m (hn.trans hm)
  apart m hm := h.apart m (hn.trans hm)
  named s name hm := h.named s name (hn.trans hm)

theorem LaidOut.of_part {n p : Node} (h : n.LaidOut) (hp : p ∈ n.parts) : p.LaidOut :=
  h.of_has (.part hp (.self p))

/-- What a node needs to be laid out besides its parts. -/
def placesParts (n : Node) : Bool :=
  n.placedParts.all (n.span.covers ·.span) &&
    decide (n.placedParts.Pairwise fun a b => a.span.Apart b.span) &&
    match n with
    | .reference s _ => decide (s.start < s.stop)
    | _ => true

theorem laidOut_iff {tree : Node} : tree.LaidOut ↔ tree.nodes.all placesParts = true := by
  simp only [List.all_eq_true, mem_nodes_iff, placesParts, Bool.and_eq_true, decide_eq_true_eq]
  constructor
  · refine fun h n hn => ⟨⟨h.within n hn, h.apart n hn⟩, ?_⟩
    cases n with
    | reference s name => exact decide_eq_true (h.named s name hn)
    | _ => rfl
  · intro h
    exact ⟨fun n hn => (h n hn).1.1, fun n hn => (h n hn).1.2, fun s name hn =>
      of_decide_eq_true (h (.reference s name) hn).2⟩

instance (tree : Node) : Decidable tree.LaidOut :=
  decidable_of_iff _ laidOut_iff.symm

end Node

/-! ## Spans -/

theorem Span.covers_self (s : Span) : s.covers s = true :=
  Span.covers_iff.2 ⟨Nat.le_refl _, Nat.le_refl _⟩

theorem Span.covers_trans {a b c : Span} (h : a.covers b = true) (h' : b.covers c = true) :
    a.covers c = true := by
  rw [Span.covers_iff] at *
  omega

/-- What is within apart spans is apart. -/
theorem Span.Apart.of_covers {a b a' b' : Span} (h : a.Apart b) (ha : a.covers a' = true)
    (hb : b.covers b' = true) : a'.Apart b' := by
  rw [Span.covers_iff] at ha hb
  rw [Span.Apart] at *
  omega

/-- What takes up some of the text and is within another span is not apart from it. -/
theorem Span.not_apart_of_covers {a b : Span} (h : a.covers b = true) (hb : b.start < b.stop) :
    ¬a.Apart b := by
  rw [Span.covers_iff] at h
  rw [Span.Apart]
  omega

instance {α : Type} (f : α → Span) : Std.Symm fun a b => (f a).Apart (f b) :=
  ⟨fun _ _ => Span.Apart.symm⟩

/-! ## Places in a tree -/

namespace Node

/-- A part that has anything besides words is placed. -/
theorem placed_of_has {n p m : Node} (hp : p ∈ n.parts) (hm : p.Has m)
    (hword : m.isWord = false) : p ∈ n.placedParts := by
  cases n with
  | group k s ps =>
      refine List.mem_filter.2 ⟨hp, ?_⟩
      rcases hm.cases_part with rfl | ⟨q, hq, -⟩
      · rw [hword]
        rfl
      · cases p with
        | word => exact nomatch hq
        | _ => rfl
  | _ => exact hp

section

variable {tree n m : Node} (h : tree.LaidOut)
include h

/-- What a tree has is within it. -/
theorem LaidOut.covers (hm : tree.Has m) (hword : m.isWord = false) :
    tree.span.covers m.span = true := by
  induction hm with
  | self => exact Span.covers_self _
  | @part n p m hp hm ih =>
      exact Span.covers_trans (h.within n (.self n) p (placed_of_has hp hm hword))
        (ih (h.of_part hp) hword)

/-- Of two nodes of a tree one has the other, or they are apart. -/
theorem LaidOut.has_or_apart (hn : tree.Has n) (hm : tree.Has m) (hnword : n.isWord = false)
    (hmword : m.isWord = false) : n.Has m ∨ m.Has n ∨ n.span.Apart m.span := by
  induction tree using inductOn with
  | node tree ih =>
      rcases hn.cases_part with rfl | ⟨p, hp, hpn⟩
      · exact .inl hm
      · rcases hm.cases_part with rfl | ⟨q, hq, hqm⟩
        · exact .inr (.inl hn)
        · by_cases heq : p = q
          · subst heq
            exact ih p hp (h.of_part hp) hpn hqm
          · have hapart : p.span.Apart q.span :=
              (h.apart tree (.self tree)).forall (placed_of_has hp hpn hnword)
                (placed_of_has hq hqm hmword) heq
            exact .inr (.inr (hapart.of_covers ((h.of_part hp).covers hpn hnword)
              ((h.of_part hq).covers hqm hmword)))

end

end Node

/-! ## Sites -/

namespace Site

/-- Where a site is. -/
def place : Site → Span
  | .reference s _ | .binding s _ | .call s _ _ _ => s

/-- Can the site `b` be visited after `a`? It is apart from it, or within the call that `a` is;
in a call it is the callee, or apart from the callee. -/
def Follows : Site → Site → Prop
  | .call s callee name _, b =>
      s.Apart b.place ∨ s.covers b.place = true ∧
        (b = .reference callee name ∨ callee.Apart b.place)
  | .reference s _, b | .binding s _, b => s.Apart b.place

theorem Follows.of_apart {a b : Site} (h : a.place.Apart b.place) : a.Follows b := by
  cases a with
  | call => exact .inl h
  | reference => exact h
  | binding => exact h

end Site

namespace Node

/-- The sites that a node is, apart from those of its parts. -/
def ownSites : Node → List Site
  | .reference s name => [.reference s name]
  | .binding s name => [.binding s name]
  | .call s (.reference callee name) _ args => [.call s callee name args]
  | _ => []

theorem pairwise_ownSites (n : Node) : n.ownSites.Pairwise Site.Follows := by
  rw [ownSites.eq_def]
  split <;> simp

theorem sitesOf_eq (ns : List Node) : sitesOf ns = ns.flatMap Node.sites := by
  induction ns with
  | nil => rfl
  | cons n ns ih => rw [sitesOf, ih, List.flatMap_cons]

theorem sites_eq (n : Node) : n.sites = n.ownSites ++ n.parts.flatMap sites := by
  cases n with
  | call s callee typeArgs args =>
      cases callee <;> simp [sites, ownSites, parts, sitesOf_eq]
  | _ => simp [sites, ownSites, parts, sitesOf_eq]

/-- The visit of a tree goes through its nodes. -/
theorem sites_eq_flatMap (n : Node) : n.sites = n.nodes.flatMap ownSites := by
  induction n using inductOn with
  | node n ih =>
      rw [sites_eq, nodes_eq, List.flatMap_cons, List.flatMap_assoc]
      exact congrArg _ (List.flatMap_congr ih)

theorem mem_sites_iff {n : Node} {site : Site} :
    site ∈ n.sites ↔ ∃ m, n.Has m ∧ site ∈ m.ownSites := by
  simp only [sites_eq_flatMap, List.mem_flatMap, mem_nodes_iff]

theorem call_mem_ownSites {m : Node} {s callee : Span} {name : String} {args : List Node} :
    .call s callee name args ∈ m.ownSites ↔
      ∃ typeArgs, m = .call s (.reference callee name) typeArgs args := by
  cases m with
  | call s callee typeArgs args => cases callee <;> simp [ownSites, eq_comm, and_assoc]
  | _ => simp [ownSites]

/-- A name is called at a site exactly if the tree has the call as a node. -/
theorem call_mem_sites {n : Node} {s callee : Span} {name : String} {args : List Node} :
    .call s callee name args ∈ n.sites ↔
      ∃ typeArgs, n.Has (.call s (.reference callee name) typeArgs args) := by
  simp only [mem_sites_iff, call_mem_ownSites]
  constructor
  · rintro ⟨m, hm, typeArgs, rfl⟩
    exact ⟨typeArgs, hm⟩
  · rintro ⟨typeArgs, hm⟩
    exact ⟨_, hm, typeArgs, rfl⟩

/-- Only placed parts have sites. -/
theorem flatMap_placedParts (n : Node) : n.placedParts.flatMap sites = n.parts.flatMap sites := by
  cases n with
  | group k s ps =>
      show (ps.filter (!·.isWord)).flatMap sites = ps.flatMap sites
      induction ps with
      | nil => rfl
      | cons p ps ih =>
          rw [List.filter_cons, List.flatMap_cons, ← ih]
          cases p <;> rfl
  | _ => rfl

section

variable {n : Node} (h : n.LaidOut)
include h

theorem LaidOut.of_placedPart {p : Node} (hp : p ∈ n.placedParts) : p.LaidOut :=
  h.of_part (mem_parts_of_placed hp)

/-- The sites of a tree are within it. -/
theorem LaidOut.covers_sites : ∀ site ∈ n.sites, n.span.covers site.place = true := by
  induction n using inductOn with
  | node n ih =>
      intro site hsite
      rw [sites_eq, ← flatMap_placedParts, List.mem_append, List.mem_flatMap] at hsite
      rcases hsite with hown | ⟨p, hp, hsite⟩
      · rw [ownSites.eq_def] at hown
        split at hown <;> simp at hown <;> subst hown <;> exact Span.covers_self _
      · exact Span.covers_trans (h.within n (.self n) p hp)
          (ih p (mem_parts_of_placed hp) (h.of_placedPart hp) site hsite)

/-- The sites of a call's parts are within the call, and all but its callee are apart from the
callee. -/
theorem follows_call {s callee : Span} {name : String} {typeArgs args : List Node}
    (hn : n = .call s (.reference callee name) typeArgs args) :
    ∀ b ∈ n.parts.flatMap sites, (Site.call s callee name args).Follows b := by
  subst hn
  intro b hb
  obtain ⟨p, hp, hb⟩ := List.mem_flatMap.1 hb
  refine .inr ⟨?_, ?_⟩
  · exact Span.covers_trans (h.within _ (.self _) p hp) ((h.of_part hp).covers_sites b hb)
  · rcases List.mem_cons.1 hp with rfl | hp'
    · exact .inl (List.mem_singleton.1 hb)
    · have hapart := (List.pairwise_cons.1 (h.apart _ (.self _))).1 p hp'
      exact .inr (hapart.of_covers (Span.covers_self _) ((h.of_part hp).covers_sites b hb))

/-- What is visited later is apart from what was visited, or within it if that is a call. -/
theorem LaidOut.follows : n.sites.Pairwise Site.Follows := by
  induction n using inductOn with
  | node n ih =>
      rw [sites_eq, List.pairwise_append]
      refine ⟨n.pairwise_ownSites, ?_, ?_⟩
      · rw [← flatMap_placedParts, List.pairwise_flatMap]
        refine ⟨fun p hp => ih p (mem_parts_of_placed hp) (h.of_placedPart hp), ?_⟩
        refine (h.apart n (.self n)).imp_of_mem fun hp hq hapart a ha b hb => ?_
        exact .of_apart (hapart.of_covers ((h.of_placedPart hp).covers_sites a ha)
          ((h.of_placedPart hq).covers_sites b hb))
      · intro a ha b hb
        rw [ownSites.eq_def] at ha
        split at ha <;> simp at ha
        · simp [parts] at hb
        · simp [parts] at hb
        · subst ha
          exact follows_call h rfl b hb

end

end Node

end SiteMacros.Script
