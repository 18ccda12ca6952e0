import SiteMacros.Proofs.TreeSites
import SiteMacros.Script.Parser

/-!
# Detection of calls

A visit that comes to an end has found every call of a macro in the tree, wherever it
stands, and nothing else. It comes to an end exactly if macros are only called, and not
within a call of another one. If it stops, it stops at the first node that offends against
this, and the error is the one for that node: that a macro is not called, or in which
argument of which call another call stands (`findCalls_detects`).

A visit knows spans and no tree. The callee of a call is told by where it starts, and a
call around a call by its span. Both are right in a tree that is laid out, since no two
names start at one place, and a call with another one in its span has it in an argument or
in a type argument.

The error has one argument to name, and cannot tell of two things. So a call within another
one goes unreported if something else is wrong before it, and the first argument stands for
all if the call is in a type argument (`nested_calls_misreported`).
-/

namespace SiteMacros.Script

namespace Node

/-- The call of a macro that a node is. -/
def macroCall? (text : String) (bindings : Bindings) : Node → Option MacroCall
  | .call s (.reference _ name) _ args =>
      (bindings.lookup name).map fun m => ⟨m, s, args.map (MacroCall.argument text)⟩
  | _ => none

/-- Does the tree have a call whose callee is the name at a place? -/
def IsCallee (tree : Node) (s : Span) (name : String) : Prop :=
  ∃ place typeArgs args, tree.Has (.call place (.reference s name) typeArgs args)

/-- A node of the tree that calls of macros may not have, with the error for it. -/
inductive Offends (text : String) (bindings : Bindings) (tree : Node) : Node → MacroError → Prop
  /-- A macro that is not called. -/
  | indirect {s : Span} {name : String} {m : MacroName} (hbound : bindings.lookup name = some m)
      (hcallee : ¬tree.IsCallee s name) :
      Offends text bindings tree (.reference s name) (.configuration (.indirectUse m.name))
  /-- A call in an argument of another one. -/
  | inArgument {inner callee : Node} {s : Span} {typeArgs args : List Node}
      {innerCall outerCall : MacroCall} {i : Nat} {arg : Node}
      (hinner : inner.macroCall? text bindings = some innerCall)
      (houter : tree.Has (.call s callee typeArgs args))
      (hcall : (call s callee typeArgs args).macroCall? text bindings = some outerCall)
      (harg : args[i]? = some arg) (hin : arg.Has inner) :
      Offends text bindings tree inner
        (.argumentType outerCall.callee.name (i + 1) (arg.span.textIn text))
  /-- A call in a type argument of another one. -/
  | inTypeArgument {inner callee typeArg : Node} {s : Span} {typeArgs args : List Node}
      {innerCall outerCall : MacroCall}
      (hinner : inner.macroCall? text bindings = some innerCall)
      (houter : tree.Has (.call s callee typeArgs args))
      (hcall : (call s callee typeArgs args).macroCall? text bindings = some outerCall)
      (harg : typeArg ∈ typeArgs) (hin : typeArg.Has inner) :
      Offends text bindings tree inner
        (.argumentType outerCall.callee.name 1 (inner.span.textIn text))

/-- The first node that offends, in the order of a visit. -/
def FirstOffends (text : String) (bindings : Bindings) (tree n : Node) (e : MacroError) : Prop :=
  ∃ before after, tree.nodes = before ++ n :: after ∧
    (∀ m ∈ before, ∀ e', ¬tree.Offends text bindings m e') ∧ tree.Offends text bindings n e

end Node

/-! ## Visits that stop -/

section

variable {α β ε : Type} {f : β → α → Except ε β} {offends : α → ε → Prop} {xs : List α} {b : β}

/-- What stops a run is the first thing that offends. -/
theorem foldlM_eq_error_iff
    (h : ∀ before x after b', xs = before ++ x :: after → before.foldlM f b = .ok b' →
      ∀ e, f b' x = .error e ↔ offends x e) (e : ε) :
    xs.foldlM f b = .error e ↔ ∃ x before after, xs = before ++ x :: after ∧
      (∀ y ∈ before, ∀ e', ¬offends y e') ∧ offends x e := by
  induction xs generalizing b with
  | nil => simp [pure, Except.pure]
  | cons x xs ih =>
      have hx := h [] x xs b rfl rfl
      rw [List.foldlM_cons]
      cases hrun : f b x with
      | error e' =>
          have hoffends := (hx e').1 hrun
          constructor
          · intro heq
            cases heq
            exact ⟨x, [], xs, rfl, List.forall_mem_nil _, hoffends⟩
          · rintro ⟨y, before, after, heq, hbefore, hy⟩
            cases before with
            | nil =>
                obtain ⟨rfl, -⟩ := List.cons.inj heq
                rw [(hx e).2 hy] at hrun
                cases hrun
                rfl
            | cons y' before =>
                obtain ⟨rfl, -⟩ := List.cons.inj heq
                exact absurd hoffends (hbefore _ List.mem_cons_self e')
      | ok b' =>
          have hfine : ∀ e', ¬offends x e' := by
            intro e' hoffends
            rw [(hx e').2 hoffends] at hrun
            exact nomatch hrun
          have hrest := ih fun before y after b'' heq hbefore => h (x :: before) y after b''
            (by rw [heq]; rfl) (by rw [List.foldlM_cons, hrun]; exact hbefore)
          refine hrest.trans ⟨?_, ?_⟩
          · rintro ⟨y, before, after, rfl, hbefore, hy⟩
            exact ⟨y, x :: before, after, rfl, List.forall_mem_cons.2 ⟨hfine, hbefore⟩, hy⟩
          · rintro ⟨y, before, after, heq, hbefore, hy⟩
            cases before with
            | nil =>
                obtain ⟨rfl, -⟩ := List.cons.inj heq
                exact absurd hy (hfine e)
            | cons y' before =>
                obtain ⟨rfl, rfl⟩ := List.cons.inj heq
                exact ⟨y, before, after, rfl, (List.forall_mem_cons.1 hbefore).2, hy⟩

end

/-! ## What is found before a node -/

namespace Node

/-- What is found at one more node. -/
def visit (text : String) (bindings : Bindings) (f : Finding) (n : Node) :
    Except MacroError Finding :=
  n.ownSites.foldlM (Finding.visit text bindings) f

section

variable {text : String} {bindings : Bindings} {f g : Finding} {ns : List Node}

theorem foldlM_visit : ns.foldlM (visit text bindings) f =
    (ns.flatMap ownSites).foldlM (Finding.visit text bindings) f := by
  induction ns generalizing f with
  | nil => rfl
  | cons n ns ih =>
      rw [List.foldlM_cons, List.flatMap_cons, List.foldlM_append]
      exact congrArg _ (funext fun _ => ih)

theorem findCalls_eq (tree : Node) : findCalls text bindings tree =
    (tree.nodes.foldlM (visit text bindings) {}).map (·.calls) := by
  rw [findCalls, foldlM_visit, sites_eq_flatMap]

theorem macroCall?_eq_some {n : Node} {c : MacroCall} :
    n.macroCall? text bindings = some c ↔ ∃ s callee name typeArgs args m,
      n = .call s (.reference callee name) typeArgs args ∧ bindings.lookup name = some m ∧
        c = ⟨m, s, args.map (MacroCall.argument text)⟩ := by
  constructor
  · intro h
    rw [macroCall?.eq_def] at h
    split at h
    · obtain ⟨m, hm, rfl⟩ := Option.map_eq_some_iff.1 h
      exact ⟨_, _, _, _, _, m, rfl, hm, rfl⟩
    · exact nomatch h
  · rintro ⟨s, callee, name, typeArgs, args, m, rfl, hm, rfl⟩
    rw [macroCall?, hm]
    rfl

variable (hrun : ns.foldlM (visit text bindings) {} = .ok g)
include hrun

theorem mem_calls_of_run {c : MacroCall} :
    c ∈ g.calls ↔ ∃ n ∈ ns, n.macroCall? text bindings = some c := by
  rw [foldlM_visit] at hrun
  rw [(Finding.foldlM_after hrun).calls, List.nil_append, List.mem_filterMap]
  constructor
  · rintro ⟨site, hsite, hcall⟩
    obtain ⟨n, hn, hown⟩ := List.mem_flatMap.1 hsite
    refine ⟨n, hn, ?_⟩
    cases site with
    | call s callee name args =>
        obtain ⟨typeArgs, rfl⟩ := call_mem_ownSites.1 hown
        exact hcall
    | reference | binding => exact nomatch hcall
  · rintro ⟨n, hn, hcall⟩
    obtain ⟨s, callee, name, typeArgs, args, m, rfl, hm, rfl⟩ := macroCall?_eq_some.1 hcall
    exact ⟨_, List.mem_flatMap.2 ⟨_, hn, call_mem_ownSites.2 ⟨_, rfl⟩⟩, hcall⟩

theorem mem_callees_of_run {start : Nat} :
    start ∈ g.callees ↔ ∃ s callee name typeArgs args,
      .call s (.reference callee name) typeArgs args ∈ ns ∧
        (bindings.lookup name).isSome = true ∧ callee.start = start := by
  rw [foldlM_visit] at hrun
  rw [(Finding.foldlM_after hrun).callees, List.append_nil, List.mem_reverse, List.mem_filterMap]
  constructor
  · rintro ⟨site, hsite, hstart⟩
    obtain ⟨n, hn, hown⟩ := List.mem_flatMap.1 hsite
    cases site with
    | call s callee name args =>
        obtain ⟨typeArgs, rfl⟩ := call_mem_ownSites.1 hown
        obtain ⟨m, hm, rfl⟩ := Option.map_eq_some_iff.1 hstart
        exact ⟨s, callee, name, typeArgs, args, hn, by rw [hm]; rfl, rfl⟩
    | reference | binding => exact nomatch hstart
  · rintro ⟨s, callee, name, typeArgs, args, hn, hbound, rfl⟩
    obtain ⟨m, hm⟩ := Option.isSome_iff_exists.1 hbound
    refine ⟨_, List.mem_flatMap.2 ⟨_, hn, call_mem_ownSites.2 ⟨_, rfl⟩⟩, ?_⟩
    rw [Site.calleeStart?, hm]
    rfl

/-- None of the calls that are found is within an earlier one. -/
theorem distinct_of_run : g.calls.Pairwise fun a b => a.span.covers b.span = false := by
  rw [foldlM_visit] at hrun
  exact (Finding.foldlM_after hrun).distinct .nil

end

/-! ## Calls and names in a tree -/

/-- What a call has is the call itself, its callee, or in an argument or a type argument. -/
theorem Has.cases_call {s callee : Span} {name : String} {typeArgs args : List Node} {n : Node}
    (hn : (Node.call s (.reference callee name) typeArgs args).Has n) :
    n = .call s (.reference callee name) typeArgs args ∨ n = .reference callee name ∨
      ∃ arg ∈ typeArgs ++ args, arg.Has n := by
  rcases hn.cases_part with rfl | ⟨p, hp, hpn⟩
  · exact .inl rfl
  · rcases List.mem_cons.1 hp with rfl | hp
    · rcases hpn.cases_part with rfl | ⟨q, hq, -⟩
      · exact .inr (.inl rfl)
      · exact nomatch hq
    · exact .inr (.inr ⟨p, hp, hpn⟩)

section

variable {text : String} {bindings : Bindings} {tree : Node} (h : tree.LaidOut)
include h

theorem LaidOut.nodes_follow : tree.nodes.Pairwise fun n m =>
    ∀ a ∈ n.ownSites, ∀ b ∈ m.ownSites, a.Follows b := by
  have hfollows := h.follows
  rw [sites_eq_flatMap, List.pairwise_flatMap] at hfollows
  exact hfollows.2

/-- No two names are referred to at places that start together. -/
theorem LaidOut.reference_unique {s s' : Span} {name name' : String}
    (href : tree.Has (.reference s name)) (href' : tree.Has (.reference s' name'))
    (hstart : s.start = s'.start) : s = s' ∧ name = name' := by
  have hfilled := h.named s name href
  have hfilled' := h.named s' name' href'
  rcases h.has_or_apart href href' rfl rfl with hhas | hhas | hapart
  · rcases hhas.cases_part with heq | ⟨p, hp, -⟩
    · cases heq
      exact ⟨rfl, rfl⟩
    · exact nomatch hp
  · rcases hhas.cases_part with heq | ⟨p, hp, -⟩
    · cases heq
      exact ⟨rfl, rfl⟩
    · exact nomatch hp
  · simp only [span, Span.Apart] at hapart
    omega

section

variable {s callee : Span} {name : String} {typeArgs args : List Node}
  (hcall : tree.Has (.call s (.reference callee name) typeArgs args))
include hcall

/-- A call has its callee, which takes up some of its place. -/
theorem LaidOut.callee_within : s.covers callee = true ∧ callee.start < callee.stop := by
  have hpart : Node.reference callee name ∈
      parts (.call s (.reference callee name) typeArgs args) := List.mem_cons_self
  exact ⟨h.within _ hcall _ hpart, h.named callee name (hcall.trans (.part hpart (.self _)))⟩

/-- What is in an argument or a type argument of a call is within the call, and apart from its
callee. -/
theorem LaidOut.argument_within {arg n : Node} (harg : arg ∈ typeArgs ++ args)
    (hn : arg.Has n) (hword : n.isWord = false) :
    s.covers n.span = true ∧ callee.Apart n.span := by
  have hlaid := h.of_has hcall
  have hcovers := (hlaid.of_part (List.mem_cons_of_mem _ harg)).covers hn hword
  have hapart := (List.pairwise_cons.1 (hlaid.apart _ (.self _))).1 arg harg
  refine ⟨?_, hapart.of_covers (Span.covers_self _) hcovers⟩
  exact Span.covers_trans (hlaid.within _ (.self _) arg (List.mem_cons_of_mem _ harg)) hcovers

/-- A call that takes up the place of another one, or more, has it in an argument or in a type
argument, if it is not the same. -/
theorem LaidOut.exists_argument {s' callee' : Span} {name' : String} {typeArgs' args' : List Node}
    (hcall' : tree.Has (.call s' (.reference callee' name') typeArgs' args'))
    (hcovers : s.covers s' = true)
    (hne : Node.call s' (.reference callee' name') typeArgs' args' ≠
      .call s (.reference callee name) typeArgs args) :
    ∃ arg ∈ typeArgs ++ args, arg.Has (.call s' (.reference callee' name') typeArgs' args') := by
  obtain ⟨hwithin', hfilled'⟩ := h.callee_within hcall'
  have hfilled : s'.start < s'.stop := by
    rw [Span.covers_iff] at hwithin'
    omega
  rcases h.has_or_apart hcall hcall' rfl rfl with hhas | hhas | hapart
  · rcases hhas.cases_call with heq | heq | harg
    · exact absurd heq hne
    · exact nomatch heq
    · exact harg
  · rcases hhas.cases_call with heq | heq | ⟨arg, harg, hin⟩
    · exact absurd heq.symm hne
    · exact nomatch heq
    · -- the call within would have the callee of the call around it in its place
      have hapart := (h.argument_within hcall' harg hin rfl).2
      exact absurd hapart.symm
        (Span.not_apart_of_covers (Span.covers_trans hcovers hwithin') hfilled')
  · exact absurd hapart (Span.not_apart_of_covers hcovers hfilled)

end

end

/-! ## One node of a visit -/

section

variable {text : String} {bindings : Bindings} {tree n : Node} {before after : List Node}
  {g : Finding} (hsplit : tree.nodes = before ++ n :: after)
include hsplit

theorem has_of_split : tree.Has n ∧ ∀ m ∈ before, tree.Has m := by
  simp only [← mem_nodes_iff, hsplit]
  exact ⟨List.mem_append_right _ List.mem_cons_self, fun m hm => List.mem_append_left _ hm⟩

theorem mem_of_split {m : Node} (hm : tree.Has m) : m ∈ before ∨ m = n ∨ m ∈ after := by
  rw [← mem_nodes_iff, hsplit, List.mem_append, List.mem_cons] at hm
  exact hm

variable (h : tree.LaidOut)
include h

/-- Sites are in the order of their nodes. -/
theorem LaidOut.follows_of_split {m : Node} {a b : Site} (ha : a ∈ n.ownSites)
    (hb : b ∈ m.ownSites) : (m ∈ before → b.Follows a) ∧ (m ∈ after → a.Follows b) := by
  have hfollow := h.nodes_follow
  rw [hsplit, List.pairwise_append, List.pairwise_cons] at hfollow
  obtain ⟨-, ⟨hafter, -⟩, hbefore⟩ := hfollow
  exact ⟨fun hm => hbefore m hm n List.mem_cons_self b hb a ha, fun hm => hafter m hm a ha b hb⟩

section

variable {s callee : Span} {name : String} {typeArgs args : List Node}
  (hcall : tree.Has (.call s (.reference callee name) typeArgs args))
include hcall

/-- A call is visited before its callee. -/
theorem LaidOut.mem_before_callee (hn : n = .reference callee name) :
    .call s (.reference callee name) typeArgs args ∈ before := by
  subst hn
  obtain ⟨hwithin, hfilled⟩ := h.callee_within hcall
  rcases mem_of_split hsplit hcall with hmem | heq | hmem
  · exact hmem
  · exact nomatch heq
  · have hapart : callee.Apart s := (h.follows_of_split hsplit List.mem_cons_self
      (call_mem_ownSites.2 ⟨_, rfl⟩)).2 hmem
    exact absurd hapart.symm (Span.not_apart_of_covers hwithin hfilled)

/-- A call is visited before the calls in its arguments. -/
theorem LaidOut.mem_before_argument {arg : Node} (harg : arg ∈ typeArgs ++ args) (hin : arg.Has n)
    {s' callee' : Span} {name' : String} {typeArgs' args' : List Node}
    (hn : n = .call s' (.reference callee' name') typeArgs' args') :
    .call s (.reference callee name) typeArgs args ∈ before := by
  subst hn
  obtain ⟨hwithin, hfilled⟩ := h.callee_within hcall
  obtain ⟨hwithin', hfilled'⟩ := h.callee_within (has_of_split hsplit).1
  obtain ⟨hcovers, hapart⟩ := h.argument_within hcall harg hin rfl
  rcases mem_of_split hsplit hcall with hmem | heq | hmem
  · exact hmem
  · cases heq
    exact absurd hapart.symm (Span.not_apart_of_covers hwithin hfilled)
  · exfalso
    rcases (h.follows_of_split hsplit (call_mem_ownSites.2 ⟨_, rfl⟩)
      (call_mem_ownSites.2 ⟨_, rfl⟩)).2 hmem with hapart | ⟨-, heq | hapart⟩
    · refine Span.not_apart_of_covers hcovers ?_ hapart.symm
      rw [Span.covers_iff] at hwithin'
      show s'.start < s'.stop
      omega
    · exact nomatch heq
    · exact Span.not_apart_of_covers (Span.covers_trans hcovers hwithin') hfilled' hapart.symm

end

variable (hrun : before.foldlM (visit text bindings) {} = .ok g)
include hrun

/-- A name that is bound to a macro starts where the callee of a call starts that was visited
exactly if it is the callee of a call. -/
theorem LaidOut.mem_callees_iff {s : Span} {name : String} (hn : n = .reference s name)
    (hbound : (bindings.lookup name).isSome = true) :
    s.start ∈ g.callees ↔ tree.IsCallee s name := by
  subst hn
  obtain ⟨hhas, hbefore⟩ := has_of_split hsplit
  rw [mem_callees_of_run hrun]
  constructor
  · rintro ⟨place, callee, name', typeArgs, args, hmem, -, hstart⟩
    have hcall := hbefore _ hmem
    have hcallee : tree.Has (.reference callee name') :=
      hcall.trans (.part List.mem_cons_self (.self _))
    obtain ⟨rfl, rfl⟩ := h.reference_unique hcallee hhas hstart
    exact ⟨place, typeArgs, args, hcall⟩
  · rintro ⟨place, typeArgs, args, hcall⟩
    exact ⟨place, s, name, typeArgs, args, h.mem_before_callee hsplit hcall rfl, hbound, rfl⟩

end

/-! ## Calls within calls -/

section

variable {text : String} {bindings : Bindings} {tree : Node} (h : tree.LaidOut)
include h

/-- Calls that are found are apart. -/
theorem LaidOut.apart_of_run {ns : List Node} {g : Finding} (hns : ns.Sublist tree.nodes)
    (hrun : ns.foldlM (visit text bindings) {} = .ok g) :
    g.calls.Pairwise fun a b => a.span.Apart b.span := by
  have hdistinct := distinct_of_run hrun
  have hfollows : (ns.flatMap ownSites).Pairwise Site.Follows :=
    List.pairwise_flatMap.2 ⟨fun n _ => n.pairwise_ownSites, h.nodes_follow.sublist hns⟩
  rw [foldlM_visit] at hrun
  have hcalls := (Finding.foldlM_after hrun).calls
  rw [List.nil_append] at hcalls
  rw [hcalls, List.pairwise_filterMap] at hdistinct ⊢
  refine (hfollows.and hdistinct).imp fun {a b} hab c hc c' hc' => ?_
  have hapart := hab.2 c hc c' hc'
  cases a with
  | reference | binding => exact nomatch hc
  | call s callee name args =>
      cases b with
      | reference | binding => exact nomatch hc'
      | call s' callee' name' args' =>
          obtain ⟨m, -, rfl⟩ := Option.map_eq_some_iff.1 hc
          obtain ⟨m', -, rfl⟩ := Option.map_eq_some_iff.1 hc'
          rcases hab.1 with hfollows | ⟨hcovers, -⟩
          · exact hfollows
          · rw [show s.covers s' = true from hcovers] at hapart
            exact nomatch hapart

variable {s callee : Span} {name : String} {typeArgs args : List Node} {m : MacroName} {n : Node}
  (hcall : tree.Has (.call s (.reference callee name) typeArgs args))
  (hfilled : n.span.start < n.span.stop) (hword : n.isWord = false)
include hcall hfilled hword

/-- A call in an argument is in no other argument's place. -/
theorem LaidOut.nested_of_argument {i : Nat} {arg : Node} (harg : args[i]? = some arg)
    (hin : arg.Has n) :
    MacroCall.nested text ⟨m, s, args.map (MacroCall.argument text)⟩ n.span =
      .argumentType m.name (i + 1) (arg.span.textIn text) := by
  have hlaid := h.of_has hcall
  have hmem : arg ∈ typeArgs ++ args := List.mem_append_right _ (List.mem_of_getElem? harg)
  have hcovers := (hlaid.of_part (List.mem_cons_of_mem _ hmem)).covers hin hword
  have hapart : args.Pairwise fun a b => a.span.Apart b.span :=
    (List.pairwise_append.1 (List.pairwise_cons.1 (hlaid.apart _ (.self _))).2).2.1
  obtain ⟨hi, rfl⟩ := List.getElem?_eq_some_iff.1 harg
  have hindex : (args.map (MacroCall.argument text)).findIdx? (·.span.covers n.span) = some i := by
    refine List.findIdx?_eq_some_iff_getElem.2 ⟨by simpa using hi, ?_, fun j hj => ?_⟩
    · simpa [MacroCall.argument] using hcovers
    · have hji := List.pairwise_iff_getElem.1 hapart j i (by omega) hi hj
      simp only [List.getElem_map, MacroCall.argument, Bool.not_eq_true]
      refine Bool.eq_false_iff.2 fun hcovers' => ?_
      exact Span.not_apart_of_covers hcovers' hfilled (hji.of_covers (Span.covers_self _) hcovers)
  rw [MacroCall.nested]
  simp only [hindex, List.getElem?_map, harg, Option.map_some, Option.getD_some, MacroCall.argument]

/-- A call in a type argument is in no argument's place. -/
theorem LaidOut.nested_of_typeArgument {typeArg : Node} (harg : typeArg ∈ typeArgs)
    (hin : typeArg.Has n) :
    MacroCall.nested text ⟨m, s, args.map (MacroCall.argument text)⟩ n.span =
      .argumentType m.name 1 (n.span.textIn text) := by
  have hlaid := h.of_has hcall
  have hmem : typeArg ∈ typeArgs ++ args := List.mem_append_left _ harg
  have hcovers := (hlaid.of_part (List.mem_cons_of_mem _ hmem)).covers hin hword
  have hapart : ∀ a ∈ typeArgs, ∀ b ∈ args, a.span.Apart b.span :=
    (List.pairwise_append.1 (List.pairwise_cons.1 (hlaid.apart _ (.self _))).2).2.2
  have hindex : (args.map (MacroCall.argument text)).findIdx? (·.span.covers n.span) = none := by
    rw [List.findIdx?_eq_none_iff, List.forall_mem_map]
    refine fun arg hargs => Bool.eq_false_iff.2 fun hcovers' => ?_
    refine Span.not_apart_of_covers hcovers' hfilled ?_
    exact (hapart typeArg harg arg hargs).symm.of_covers (Span.covers_self _) hcovers
  rw [MacroCall.nested]
  simp only [hindex]

end

/-! ## Offences -/

section

variable {text : String} {bindings : Bindings} {tree n : Node} {before after : List Node}
  {g : Finding}

theorem visit_of_ownSites {site : Site} (hown : n.ownSites = [site]) :
    visit text bindings g n = g.visit text bindings site := by
  rw [visit, hown, List.foldlM_cons]
  exact bind_pure _

variable (h : tree.LaidOut) (hsplit : tree.nodes = before ++ n :: after)
  (hrun : before.foldlM (visit text bindings) {} = .ok g)
include h hsplit hrun

theorem LaidOut.visit_reference {s : Span} {name : String} (hn : n = .reference s name)
    (e : MacroError) : visit text bindings g n = .error e ↔ tree.Offends text bindings n e := by
  have hcallees := h.mem_callees_iff hsplit hrun hn
  subst hn
  rw [visit_of_ownSites rfl, Finding.visit]
  constructor
  · intro hvisit
    split at hvisit
    · next m hm =>
        split at hvisit
        · cases hvisit
        · next hfree =>
            cases hvisit
            refine .indirect hm fun hcallee => hfree ?_
            exact List.contains_iff_mem.2 ((hcallees (by rw [hm]; rfl)).2 hcallee)
    · cases hvisit
  · intro hoffends
    cases hoffends with
    | @indirect _ _ m hbound hcallee =>
        have hfree : g.callees.contains s.start = false := by
          refine Bool.eq_false_iff.2 fun hmem => hcallee ?_
          exact (hcallees (by rw [hbound]; rfl)).1 (List.contains_iff_mem.1 hmem)
        rw [hbound]
        dsimp only
        rw [hfree]
        rfl
    | inArgument hinner => cases hinner
    | inTypeArgument hinner => cases hinner

/-- The error for a call within another one is that of the only call around it that was
found. -/
theorem LaidOut.offends_iff_nested {c : MacroCall} (hn : n.macroCall? text bindings = some c)
    (e : MacroError) : tree.Offends text bindings n e ↔
      ∃ outer ∈ g.calls, outer.span.covers n.span = true ∧ e = outer.nested text n.span := by
  obtain ⟨hhas, hbefore⟩ := has_of_split hsplit
  obtain ⟨s, callee, name, typeArgs, args, m, rfl, hm, rfl⟩ := macroCall?_eq_some.1 hn
  obtain ⟨hwithin, hcallee⟩ := h.callee_within hhas
  have hfilled : (Node.call s (.reference callee name) typeArgs args).span.start <
      (Node.call s (.reference callee name) typeArgs args).span.stop := by
    rw [Span.covers_iff] at hwithin
    dsimp only [span]
    omega
  constructor
  · intro hoffends
    cases hoffends with
    | inArgument _ houter hcall harg hin =>
        obtain ⟨_, _, _, _, _, m', heq, -, rfl⟩ := macroCall?_eq_some.1 hcall
        cases heq
        have hbefore := h.mem_before_argument hsplit houter
          (List.mem_append_right _ (List.mem_of_getElem? harg)) hin rfl
        refine ⟨_, (mem_calls_of_run hrun).2 ⟨_, hbefore, hcall⟩, ?_, ?_⟩
        · exact (h.argument_within houter
            (List.mem_append_right _ (List.mem_of_getElem? harg)) hin rfl).1
        · exact (h.nested_of_argument houter hfilled rfl harg hin).symm
    | inTypeArgument _ houter hcall harg hin =>
        obtain ⟨_, _, _, _, _, m', heq, -, rfl⟩ := macroCall?_eq_some.1 hcall
        cases heq
        have hbefore := h.mem_before_argument hsplit houter (List.mem_append_left _ harg) hin rfl
        refine ⟨_, (mem_calls_of_run hrun).2 ⟨_, hbefore, hcall⟩, ?_, ?_⟩
        · exact (h.argument_within houter (List.mem_append_left _ harg) hin rfl).1
        · exact (h.nested_of_typeArgument houter hfilled rfl harg hin).symm
  · rintro ⟨outer, houter, hcovers, rfl⟩
    obtain ⟨o, ho, hcall⟩ := (mem_calls_of_run hrun).1 houter
    obtain ⟨s', callee', name', typeArgs', args', m', rfl, -, rfl⟩ := macroCall?_eq_some.1 hcall
    have hother : Node.call s (.reference callee name) typeArgs args ≠
        .call s' (.reference callee' name') typeArgs' args' := by
      intro heq
      cases heq
      rcases (h.follows_of_split hsplit (call_mem_ownSites.2 ⟨_, rfl⟩)
        (call_mem_ownSites.2 ⟨_, rfl⟩)).1 ho with hapart | ⟨-, heq | hapart⟩
      · exact Span.not_apart_of_covers (Span.covers_self s) hfilled hapart
      · exact nomatch heq
      · exact Span.not_apart_of_covers hwithin hcallee hapart.symm
    obtain ⟨arg, harg, hin⟩ := h.exists_argument (hbefore _ ho) hhas hcovers hother
    rcases List.mem_append.1 harg with harg | harg
    · rw [h.nested_of_typeArgument (hbefore _ ho) hfilled rfl harg hin]
      exact .inTypeArgument hn (hbefore _ ho) hcall harg hin
    · obtain ⟨i, hi⟩ := List.mem_iff_getElem?.1 harg
      rw [h.nested_of_argument (hbefore _ ho) hfilled rfl hi hin]
      exact .inArgument hn (hbefore _ ho) hcall hi hin

/-- A visit stops at a node exactly if it offends. -/
theorem LaidOut.visit_eq_error_iff (e : MacroError) :
    visit text bindings g n = .error e ↔ tree.Offends text bindings n e := by
  cases hcall : n.macroCall? text bindings with
  | some c =>
      rw [h.offends_iff_nested hsplit hrun hcall]
      have hapart := h.apart_of_run
        (hsplit ▸ List.sublist_append_left before (n :: after)) hrun
      obtain ⟨hhas, -⟩ := has_of_split hsplit
      obtain ⟨s, callee, name, typeArgs, args, m, rfl, hm, rfl⟩ := macroCall?_eq_some.1 hcall
      obtain ⟨hwithin, hcallee⟩ := h.callee_within hhas
      rw [visit_of_ownSites rfl, Finding.visit, hm]
      dsimp only
      constructor
      · intro hvisit
        split at hvisit
        · next outer hfind =>
            cases hvisit
            have hcovers := List.find?_some hfind
            exact ⟨outer, List.mem_of_find?_eq_some hfind, hcovers, rfl⟩
        · cases hvisit
      · rintro ⟨outer, houter, hcovers, rfl⟩
        split
        · next outer' hfind =>
            -- calls that are apart cannot have the callee in both their places
            have houter' := List.mem_of_find?_eq_some hfind
            have hcovers' := List.find?_some hfind
            by_cases heq : outer' = outer
            · rw [heq]
              rfl
            · have hapart := hapart.forall houter' houter heq
              exact absurd (hapart.of_covers (Span.covers_trans hcovers' hwithin)
                (Span.covers_trans hcovers hwithin))
                (Span.not_apart_of_covers (Span.covers_self _) hcallee)
        · next hfind => exact absurd hcovers (List.find?_eq_none.1 hfind outer houter)
  | none =>
      cases n with
      | reference s name => exact h.visit_reference hsplit hrun rfl e
      | call s callee typeArgs args =>
          have hoffends : ¬tree.Offends text bindings (.call s callee typeArgs args) e := by
            intro hoffends
            cases hoffends with
            | inArgument hinner | inTypeArgument hinner => cases hcall.symm.trans hinner
          refine iff_of_false (fun hvisit => ?_) hoffends
          cases callee with
          | reference callee name =>
              rw [macroCall?, Option.map_eq_none_iff] at hcall
              rw [visit_of_ownSites rfl, Finding.visit, hcall] at hvisit
              cases hvisit
          | _ => cases hvisit
      | _ =>
          refine iff_of_false (fun hvisit => ?_) fun hoffends => ?_
          · cases hvisit
          cases hoffends with
          | inArgument hinner | inTypeArgument hinner => cases hinner

end

/-! ## What a visit comes to -/

/-- A macro is referred to only as the callee of a call. -/
def OnlyCalls (bindings : Bindings) (tree : Node) : Prop :=
  ∀ s name, tree.Has (.reference s name) → (bindings.lookup name).isSome = true →
    tree.IsCallee s name

/-- No call of a macro is in the place of another one. -/
def SeparatesCalls (text : String) (bindings : Bindings) (tree : Node) : Prop :=
  ∀ n m c c', tree.Has n → tree.Has m → n.macroCall? text bindings = some c →
    m.macroCall? text bindings = some c' → c.span.covers c'.span = true → n = m

section

variable {text : String} {bindings : Bindings} {tree : Node} (h : tree.LaidOut)
include h

theorem LaidOut.findCalls_eq_error_iff (e : MacroError) :
    findCalls text bindings tree = .error e ↔ ∃ n, tree.FirstOffends text bindings n e := by
  have hruns := foldlM_eq_error_iff (f := visit text bindings) (b := {})
    (fun before n after g hsplit hrun => h.visit_eq_error_iff hsplit hrun) e
  refine Iff.trans ?_ hruns
  rw [findCalls_eq]
  cases tree.nodes.foldlM (visit text bindings) {} with
  | ok g => exact iff_of_false (fun heq => nomatch heq) fun heq => nomatch heq
  | error e' => exact ⟨fun heq => congrArg _ (Except.error.inj heq),
      fun heq => congrArg _ (Except.error.inj heq)⟩

/-- If something offends, then something is the first to do so. -/
theorem LaidOut.exists_findCalls_iff : (∃ calls, findCalls text bindings tree = .ok calls) ↔
    ∀ n e, tree.Has n → ¬tree.Offends text bindings n e := by
  constructor
  · rintro ⟨calls, hfound⟩ n e hn hoffends
    rw [findCalls_eq] at hfound
    obtain ⟨before, after, hsplit⟩ := List.append_of_mem (mem_nodes_iff.2 hn)
    rw [hsplit, List.foldlM_append] at hfound
    cases hrun : before.foldlM (visit text bindings) {} with
    | error e' =>
        rw [hrun] at hfound
        exact nomatch hfound
    | ok g =>
        rw [hrun] at hfound
        have hvisit := (h.visit_eq_error_iff hsplit hrun e).2 hoffends
        change (List.foldlM (visit text bindings) g (n :: after)).map _ = _ at hfound
        rw [List.foldlM_cons, hvisit] at hfound
        exact nomatch hfound
  · intro hfine
    cases hfound : findCalls text bindings tree with
    | ok calls => exact ⟨calls, rfl⟩
    | error e =>
        obtain ⟨n, before, after, hsplit, -, hoffends⟩ := (h.findCalls_eq_error_iff e).1 hfound
        exact absurd hoffends (hfine n e (has_of_split hsplit).1)

/-- Nothing offends exactly if macros are only called, and no call is in the place of another
one. -/
theorem LaidOut.not_offends_iff : (∀ n e, tree.Has n → ¬tree.Offends text bindings n e) ↔
    tree.OnlyCalls bindings ∧ tree.SeparatesCalls text bindings := by
  constructor
  · refine fun hfine => ⟨fun s name href hbound => ?_, fun n m c c' hn hm hc hc' hcovers => ?_⟩
    · obtain ⟨m, hm⟩ := Option.isSome_iff_exists.1 hbound
      by_contra hcallee
      exact hfine _ _ href (.indirect hm hcallee)
    · by_contra hne
      obtain ⟨s, callee, name, typeArgs, args, _, rfl, -, rfl⟩ := macroCall?_eq_some.1 hc
      obtain ⟨s', callee', name', typeArgs', args', _, rfl, -, rfl⟩ := macroCall?_eq_some.1 hc'
      obtain ⟨arg, harg, hin⟩ := h.exists_argument hn hm hcovers (Ne.symm hne)
      rcases List.mem_append.1 harg with harg | harg
      · exact hfine _ _ hm (.inTypeArgument hc' hn hc harg hin)
      · obtain ⟨i, hi⟩ := List.mem_iff_getElem?.1 harg
        exact hfine _ _ hm (.inArgument hc' hn hc hi hin)
  · rintro ⟨honly, hapart⟩ n e hn hoffends
    -- a call that has another one in an argument is another one, since it has its own callee
    have hnested : ∀ {s callee : Span} {name : String} {typeArgs args : List Node} {arg : Node}
        {c c' : MacroCall}, tree.Has (.call s (.reference callee name) typeArgs args) →
        (call s (.reference callee name) typeArgs args).macroCall? text bindings = some c →
        n.macroCall? text bindings = some c' → arg ∈ typeArgs ++ args → ¬arg.Has n := by
      intro s callee name typeArgs args arg c c' houter hc hc' harg hin
      obtain ⟨s', callee', name', typeArgs', args', _, rfl, -, rfl⟩ := macroCall?_eq_some.1 hc'
      obtain ⟨hcovers, hbeside⟩ := h.argument_within houter harg hin rfl
      obtain ⟨hwithin, hfilled⟩ := h.callee_within houter
      have heq := hapart _ _ _ _ houter hn hc hc' (by
        obtain ⟨_, _, _, _, _, _, heq, -, rfl⟩ := macroCall?_eq_some.1 hc
        cases heq
        exact hcovers)
      cases heq
      exact Span.not_apart_of_covers hwithin hfilled hbeside.symm
    cases hoffends with
    | indirect hbound hcallee => exact hcallee (honly _ _ hn (by rw [hbound]; rfl))
    | inArgument hinner houter hcall harg hin =>
        obtain ⟨_, _, _, _, _, _, heq, -, -⟩ := macroCall?_eq_some.1 hcall
        cases heq
        exact hnested houter hcall hinner
          (List.mem_append_right _ (List.mem_of_getElem? harg)) hin
    | inTypeArgument hinner houter hcall harg hin =>
        obtain ⟨_, _, _, _, _, _, heq, -, -⟩ := macroCall?_eq_some.1 hcall
        cases heq
        exact hnested houter hcall hinner (List.mem_append_left _ harg) hin

end

end Node

theorem exists_of_any {ε α : Type} {r : Except ε α} {p : α → Bool}
    (h : r.toOption.any p = true) : ∃ a, r = .ok a ∧ p a = true := by
  cases r with
  | ok a => exact ⟨a, rfl, h⟩
  | error e => exact nomatch h

/-- The calls of macros are found if macros are only called, and no call is in the place of
another one. Then all of them are found, wherever they stand; they are apart, and come with
their arguments, each with its place in the call and its text. Otherwise the error is that of
the first node that offends. -/
theorem findCalls_detects {text : String} {bindings : Bindings} {tree : Node}
    (hlaid : tree.LaidOut) :
    ((∃ calls, findCalls text bindings tree = .ok calls) ↔
      tree.OnlyCalls bindings ∧ tree.SeparatesCalls text bindings) ∧
    (∀ calls, findCalls text bindings tree = .ok calls →
      (∀ c, c ∈ calls ↔ ∃ n, tree.Has n ∧ n.macroCall? text bindings = some c) ∧
      calls.Pairwise (fun a b => a.span.Apart b.span) ∧
      ∀ c ∈ calls, ∃ callee name typeArgs args,
        tree.Has (.call c.span (.reference callee name) typeArgs args) ∧
        bindings.lookup name = some c.callee ∧
        c.args = args.map (fun arg => ⟨arg.span, arg.span.textIn text, arg.literal?⟩) ∧
        ∀ arg ∈ c.args, c.span.covers arg.span = true) ∧
    ∀ e, findCalls text bindings tree = .error e ↔ ∃ n, tree.FirstOffends text bindings n e := by
  refine ⟨hlaid.exists_findCalls_iff.trans hlaid.not_offends_iff, fun calls hfound => ?_,
    hlaid.findCalls_eq_error_iff⟩
  rw [Node.findCalls_eq] at hfound
  cases hrun : tree.nodes.foldlM (Node.visit text bindings) {} with
  | error e =>
      rw [hrun] at hfound
      exact nomatch hfound
  | ok g =>
  rw [hrun] at hfound
  cases hfound
  have hmem : ∀ c, c ∈ g.calls ↔ ∃ n, tree.Has n ∧ n.macroCall? text bindings = some c := by
    intro c
    simp only [Node.mem_calls_of_run hrun, Node.mem_nodes_iff]
  refine ⟨hmem, hlaid.apart_of_run (List.Sublist.refl _) hrun, fun c hc => ?_⟩
  obtain ⟨n, hn, hcall⟩ := (hmem c).1 hc
  obtain ⟨s, callee, name, typeArgs, args, m, rfl, hm, rfl⟩ := Node.macroCall?_eq_some.1 hcall
  refine ⟨callee, name, typeArgs, args, hn, hm, rfl, List.forall_mem_map.2 fun arg harg => ?_⟩
  exact hlaid.within _ hn arg (List.mem_cons_of_mem _ (List.mem_append_right _ harg))

/-- A call in a template in a function, next to a call of something else. -/
theorem findCalls_detects_in_template :
    let text := "const f = g => `$\x7bg('..')\x7d $\x7bresolveRoute('..', g)\x7d`;"
    let bindings : Bindings := [("resolveRoute", .resolveRoute)]
    ∃ tree calls, parse (.ofPath ⟨"/p/src/a.tsx"⟩) text = .ok tree ∧ tree.LaidOut ∧
      findCalls text bindings tree = .ok calls ∧
      (tree.OnlyCalls bindings ∧ tree.SeparatesCalls text bindings) ∧
      (∀ c, c ∈ calls ↔ ∃ n, tree.Has n ∧ n.macroCall? text bindings = some c) ∧
      calls.map (fun c => (c.span, c.args.map fun arg => (arg.text, arg.literal?))) =
        [(⟨29, 50⟩, [("'..'", some ".."), ("g", none)])] := by
  intro text bindings
  have hfacts : (parse (.ofPath ⟨"/p/src/a.tsx"⟩) text).toOption.any (fun tree =>
      decide tree.LaidOut && (findCalls text bindings tree).toOption.any fun calls =>
        calls.map (fun c => (c.span, c.args.map fun arg => (arg.text, arg.literal?))) =
          [(⟨29, 50⟩, [("'..'", some ".."), ("g", none)])]) = true := by
    decide +kernel
  obtain ⟨tree, hparse, htree⟩ := exists_of_any hfacts
  obtain ⟨hlaid, hcalls⟩ := (Bool.and_eq_true _ _).mp htree
  replace hlaid := of_decide_eq_true hlaid
  obtain ⟨calls, hfound, hplaces⟩ := exists_of_any hcalls
  obtain ⟨hiff, hall, -⟩ := @findCalls_detects text bindings tree hlaid
  exact ⟨tree, calls, hparse, hlaid, hfound, hiff.1 ⟨calls, hfound⟩, (hall calls hfound).1,
    of_decide_eq_true hplaces⟩

/-- A call in an argument is not what the error says if a macro is not called before; and if a
call is in a type argument, then the error says the first argument of those that it is not
in. -/
theorem nested_calls_misreported :
    let bindings : Bindings :=
      [("loadRoutes", .loadRoutes), ("resolveRoute", .resolveRoute), ("useT", .useTranslations)]
    let nests (tree : Node) (text : String) (outer inner : MacroCall) :=
      tree.LaidOut ∧ (∃ n, tree.Has n ∧ n.macroCall? text bindings = some outer) ∧
        (∃ n, tree.Has n ∧ n.macroCall? text bindings = some inner) ∧
        outer.span.covers inner.span = true
    let unbound := "const f = loadRoutes; resolveRoute(useT(), 'a');"
    let typed := "loadRoutes<A, \x7b [useT()]: string \x7d>('x')"
    (∃ tree outer inner, parse (.ofPath ⟨"/p/src/a.tsx"⟩) unbound = .ok tree ∧
      nests tree unbound outer inner ∧ outer.callee = .resolveRoute ∧
      outer.args.map (·.span.covers inner.span) = [true, false] ∧
      findCalls unbound bindings tree = .error (.configuration (.indirectUse "loadRoutes"))) ∧
    ∃ tree outer inner, parse (.ofPath ⟨"/p/src/a.tsx"⟩) typed = .ok tree ∧
      nests tree typed outer inner ∧ outer.callee = .loadRoutes ∧
      outer.args.map (·.span.covers inner.span) = [false] ∧
      findCalls typed bindings tree = .error (.argumentType "loadRoutes" 1 "useT()") := by
  intro bindings nests unbound typed
  have hnests : ∀ (text : String) (callee : MacroName) (covers : List Bool) (e : MacroError),
      (parse (.ofPath ⟨"/p/src/a.tsx"⟩) text).toOption.any (fun tree => decide tree.LaidOut &&
        (tree.nodes.filterMap (·.macroCall? text bindings)).any (fun outer =>
          (tree.nodes.filterMap (·.macroCall? text bindings)).any fun inner =>
            outer.span.covers inner.span && decide (outer.callee = callee) &&
              decide (outer.args.map (·.span.covers inner.span) = covers)) &&
        match findCalls text bindings tree with
          | .error e' => decide (e' = e)
          | .ok _ => false) = true →
      ∃ tree outer inner, parse (.ofPath ⟨"/p/src/a.tsx"⟩) text = .ok tree ∧
        nests tree text outer inner ∧ outer.callee = callee ∧
        outer.args.map (·.span.covers inner.span) = covers ∧
        findCalls text bindings tree = .error e := by
    intro text callee covers e hfacts
    obtain ⟨tree, hparse, htree⟩ := exists_of_any hfacts
    simp only [Bool.and_eq_true, decide_eq_true_eq, List.any_eq_true, List.mem_filterMap,
      Node.mem_nodes_iff] at htree
    obtain ⟨⟨hlaid, outer, houter, inner, hinner, ⟨hcovers, hcallee⟩, hargs⟩, herror⟩ := htree
    refine ⟨tree, outer, inner, hparse, ⟨hlaid, houter, hinner, hcovers⟩, hcallee, hargs, ?_⟩
    split at herror
    · next e' hfound => rw [hfound, of_decide_eq_true herror]
    · exact nomatch herror
  exact ⟨hnests unbound _ _ _ (by decide +kernel), hnests typed _ _ _ (by decide +kernel)⟩

end SiteMacros.Script
