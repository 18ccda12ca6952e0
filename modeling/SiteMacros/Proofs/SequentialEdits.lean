import Mathlib.Algebra.BigOperators.Group.List.Basic
import Mathlib.Algebra.Ring.Int.Defs
import SiteMacros.Proofs.Splices

/-!
# Edits one at a time

Edits of a text are carried out together, each at a place of the text as it was. What comes
out is what carrying them out one at a time comes to, the last one first
(`Edit.Splices.foldrM_perform?`): an edit moves only what is behind it, so those that are
still to come, which are all ahead of it, find their places where they were. An edit alone
fails if its place is none of the text (`Edit.perform?`), so this also says that no edit on the
way is at a wrong place.

The order in which edits are given matters only for those at the very same place, which
sorting leaves as they are (`sorted_eq_of_filter_same`). At the place of an insertion the text
comes apart (`Edit.applySorted_around`): first comes what the edits up to it make of the text
ahead, then the insertions there as they are given, and then what the edits from it on make
of the rest.
-/

namespace SiteMacros

section Sorting

variable {α : Type} {le : α → α → Bool}

/-- Does neither of two members come before the other? -/
def same (le : α → α → Bool) (a b : α) : Bool :=
  le a b && le b a

theorem same_iff {a b : α} : same le a b = true ↔ le a b = true ∧ le b a = true := by
  rw [same, Bool.and_eq_true]

/-- Lists in order are equal if those members that could change places are in the same order
in both. -/
theorem eq_of_filter_same (hrefl : ∀ a, le a a = true) {as bs : List α}
    (has : as.Pairwise (le · · = true)) (hbs : bs.Pairwise (le · · = true))
    (h : ∀ a, as.filter (same le a) = bs.filter (same le a)) : as = bs := by
  have hmem {a : α} {cs ds : List α} (h : cs.filter (same le a) = ds.filter (same le a))
      (ha : a ∈ cs) : a ∈ ds := by
    have hin : a ∈ cs.filter (same le a) :=
      List.mem_filter.2 ⟨ha, same_iff.2 ⟨hrefl a, hrefl a⟩⟩
    exact (List.mem_filter.1 (h ▸ hin)).1
  induction as generalizing bs with
  | nil =>
      cases bs with
      | nil => rfl
      | cons b bs => exact nomatch hmem (h b).symm List.mem_cons_self
  | cons a as ih =>
      cases bs with
      | nil => exact nomatch hmem (h a) List.mem_cons_self
      | cons b bs =>
          obtain ⟨ha, hatail⟩ := List.pairwise_cons.1 has
          obtain ⟨hb, hbtail⟩ := List.pairwise_cons.1 hbs
          have hab : le a b = true := by
            rcases List.mem_cons.1 (hmem (h b).symm List.mem_cons_self) with rfl | hin
            · exact hrefl b
            · exact ha b hin
          have hba : le b a = true := by
            rcases List.mem_cons.1 (hmem (h a) List.mem_cons_self) with rfl | hin
            · exact hrefl a
            · exact hb a hin
          have hfirst := h a
          rw [List.filter_cons_of_pos (same_iff.2 ⟨hrefl a, hrefl a⟩),
            List.filter_cons_of_pos (same_iff.2 ⟨hab, hba⟩)] at hfirst
          obtain rfl := (List.cons.inj hfirst).1
          refine congrArg (a :: ·) (ih hatail hbtail fun c => ?_)
          have hrest := h c
          rw [List.filter_cons, List.filter_cons] at hrest
          split at hrest
          · exact (List.cons.inj hrest).2
          · exact hrest

/-- Sorting leaves open only the order of members that neither comes before the other. -/
theorem sorted_eq_of_filter_same (htotal : ∀ a b, le a b = true ∨ le b a = true)
    (htrans : ∀ a b c, le a b = true → le b c = true → le a c = true) {as bs : List α}
    (h : ∀ a, as.filter (same le a) = bs.filter (same le a)) : sorted le as = sorted le bs := by
  refine eq_of_filter_same (fun a => or_self_iff.1 (htotal a a))
    (sorted_pairwise htotal htrans as) (sorted_pairwise htotal htrans bs) fun a => ?_
  rw [← sorted_filter htotal htrans, h a, sorted_filter htotal htrans]

theorem sorted_of_pairwise {as : List α} (h : as.Pairwise (le · · = true)) : sorted le as = as := by
  induction as with
  | nil => rfl
  | cons a as ih =>
      obtain ⟨ha, has⟩ := List.pairwise_cons.1 h
      rw [sorted, ih has, insertSorted_of_le ha]

/-- A list in which those that have a property stand in front of the others. -/
theorem filter_append_filter_not {p : α → Bool} {as : List α}
    (h : as.Pairwise fun a b => p b = true → p a = true) :
    as.filter p ++ as.filter (! p ·) = as := by
  induction as with
  | nil => rfl
  | cons a as ih =>
      obtain ⟨ha, has⟩ := List.pairwise_cons.1 h
      have hrest := ih has
      cases hp : p a with
      | true =>
          simp only [List.filter_cons, hp, Bool.not_true, if_true, Bool.false_eq_true, if_false,
            List.cons_append]
          rw [hrest]
      | false =>
          have hnone : as.filter p = [] :=
            List.filter_eq_nil_iff.2 fun b hb hpb => Bool.eq_false_iff.1 hp (ha b hb hpb)
          rw [hnone, List.nil_append] at hrest
          simp only [List.filter_cons, hp, Bool.not_false, if_true, Bool.false_eq_true, if_false]
          rw [hnone, hrest, List.nil_append]

end Sorting

namespace Text

theorem bytes_ofList (cs : List Char) : bytes cs = (String.ofList cs).utf8ByteSize := by
  induction cs with
  | nil => rfl
  | cons c cs ih =>
      rw [bytes, ih, ← List.singleton_append, String.ofList_append, String.utf8ByteSize_append,
        ← String.singleton_eq_ofList, String.utf8ByteSize_singleton]

theorem bytes_toList (s : String) : bytes s.toList = s.utf8ByteSize := by
  rw [bytes_ofList, String.ofList_toList]

/-- A cut that is not behind a front of the text is one of the front. -/
theorem IsCut.ahead {front back : List Char} {n : Nat} (h : IsCut (front ++ back) n)
    (hn : n ≤ bytes front) : IsCut front n := by
  obtain ⟨before, after, hsplit, rfl⟩ := isCut_iff.1 h
  obtain ⟨between, hfront, -⟩ := exists_append_of_bytes_le hsplit.symm hn
  exact isCut_iff.2 ⟨before, between, hfront, rfl⟩

end Text

namespace Edit

instance (text : List Char) (e : Edit) : Decidable (e.StandsIn text) :=
  decidable_of_iff
    (Text.IsCut text e.start ∧ Text.IsCut text e.stop ∧ e.start ≤ e.stop)
    ⟨fun ⟨hstart, hstop, hordered⟩ => ⟨hstart, hstop, hordered⟩,
      fun h => ⟨h.start, h.stop, h.ordered⟩⟩

/-- Carry out one edit alone, if its place is one of the text. -/
def perform? (e : Edit) (s : String) : Option String :=
  if e.StandsIn s.toList then
    some (String.ofList
      (takeBytes e.start s.toList ++ e.text.toList ++ dropBytes e.stop s.toList))
  else
    none

/-- Does the edit put something in at byte `k` and take nothing away? -/
def insertsAt (k : Nat) (e : Edit) : Bool :=
  e.start == k && e.stop == k

/-- Does the edit begin ahead of byte `k` and go no further? -/
def endsBy (k : Nat) (e : Edit) : Bool :=
  decide (e.start < k) && decide (e.stop ≤ k)

/-- Does the edit end behind byte `k` and begin no earlier? -/
def beginsFrom (k : Nat) (e : Edit) : Bool :=
  decide (k ≤ e.start) && decide (k < e.stop)

/-- The same edits, those at one place in the same order. -/
structure Reordering (es fs : List Edit) : Prop where
  perm : fs.Perm es
  order : ∀ start stop, fs.filter (fun e => e.start == start && e.stop == stop) =
    es.filter fun e => e.start == start && e.stop == stop

/-- How many bytes longer an edit makes a text. -/
def growth (e : Edit) : Int :=
  e.text.utf8ByteSize - (e.stop - e.start : Int)

/-- The text `out` is what comes of `s` when edits are carried out. -/
structure CarriedOut (s : String) (es : List Edit) (out : String) : Prop where
  /-- One at a time, the last one first. -/
  sequential : (sorted le es).foldrM perform? s = some out
  /-- In whatever order those at different places are given. -/
  reordered : ∀ fs, Reordering es fs → applyAll s fs = out
  /-- At the place of an insertion: what ends there, what is put in there, what begins there. -/
  around : ∀ a ∈ es, a.stop = a.start →
    out.toList =
      applySorted 0 (sorted le (es.filter (endsBy a.start))) (takeBytes a.start s.toList) ++
        (es.filter (insertsAt a.start)).flatMap (·.text.toList) ++
        applySorted a.start (sorted le (es.filter (beginsFrom a.start)))
          (dropBytes a.start s.toList)
  length : (out.utf8ByteSize : Int) = s.utf8ByteSize + (es.map growth).sum

/-! ## One at a time -/

theorem perform?_append {e : Edit} {before removed after : List Char}
    (hstart : Text.bytes before = e.start) (hstop : e.start + Text.bytes removed = e.stop) :
    e.perform? (String.ofList (before ++ (removed ++ after))) =
      some (String.ofList (before ++ e.text.toList ++ after)) := by
  have hbefore : Text.bytes (before ++ removed) = e.stop := by
    rw [Text.bytes_append, hstart, hstop]
  have htake := Text.takeBytes_append before (removed ++ after)
  have hdrop := Text.dropBytes_append (before ++ removed) after
  have hstands : e.StandsIn (before ++ (removed ++ after)) :=
    { start := Text.isCut_iff.2 ⟨before, _, rfl, hstart⟩
      stop := Text.isCut_iff.2 ⟨before ++ removed, after, (List.append_assoc _ _ _).symm, hbefore⟩
      ordered := hstop ▸ Nat.le_add_right _ _ }
  rw [hstart] at htake
  rw [hbefore, List.append_assoc] at hdrop
  rw [perform?, String.toList_ofList, if_pos hstands, htake, hdrop]

/-- Edits on what is left of a text can be carried out one at a time on the whole of it,
whatever is ahead. -/
theorem Splices.foldrM_perform? {at_ : Nat} {es : List Edit} {cs out : List Char}
    (h : Splices at_ es cs out) {done : List Char} (hdone : Text.bytes done = at_) :
    es.foldrM perform? (String.ofList (done ++ cs)) = some (String.ofList (done ++ out)) := by
  induction h generalizing done with
  | nil => rfl
  | @cons at_ e es kept removed cs out hstart hstop _ ih =>
      have hkept : Text.bytes (done ++ kept) = e.start := by
        rw [Text.bytes_append, hdone, hstart]
      have hremoved : Text.bytes (done ++ kept ++ removed) = e.stop := by
        rw [Text.bytes_append, hkept, hstop]
      have hrest := ih hremoved
      -- what is behind has been carried out already, and the edit is still at its place
      have hlast := @perform?_append e (done ++ kept) removed out hkept hstop
      simp only [List.append_assoc] at hrest hlast ⊢
      rw [List.foldrM_cons, hrest]
      exact hlast

/-! ## How long the text becomes -/

theorem Splices.bytes {at_ : Nat} {es : List Edit} {cs out : List Char}
    (h : Splices at_ es cs out) :
    (Text.bytes out : Int) = Text.bytes cs + (es.map growth).sum := by
  induction h with
  | nil => exact (Int.add_zero _).symm
  | @cons at_ e es kept removed cs out _ hstop _ ih =>
      rw [Text.bytes_append, Text.bytes_append, Text.bytes_append, Text.bytes_append,
        List.map_cons, List.sum_cons, growth, ← Text.bytes_toList, ← hstop]
      push_cast
      rw [ih]
      omega

/-! ## Around a place -/

theorem Splices.eq_applySorted {at_ : Nat} {es : List Edit} {cs out : List Char}
    (h : Splices at_ es cs out) : applySorted at_ es cs = out := by
  induction h with
  | nil => rfl
  | @cons at_ e es kept removed cs out hstart hstop _ ih =>
      have htake : takeBytes (e.start - at_) (kept ++ (removed ++ cs)) = kept := by
        rw [← hstart, Nat.add_sub_cancel_left, Text.takeBytes_append]
      have hdrop : dropBytes (e.stop - at_) (kept ++ (removed ++ cs)) = cs := by
        rw [← hstop, ← hstart, Nat.add_assoc, Nat.add_sub_cancel_left, ← Text.bytes_append,
          ← List.append_assoc, Text.dropBytes_append]
      rw [applySorted, htake, hdrop, ih]

/-- Edits of a text up to a place, and then those of the text from there on. -/
theorem Splices.append {at_ k : Nat} {es fs : List Edit} {cs ds out out' : List Char}
    (h : Splices at_ es cs out) (hrest : Splices k fs ds out') (hk : k = at_ + Text.bytes cs) :
    Splices at_ (es ++ fs) (cs ++ ds) (out ++ out') := by
  induction h with
  | nil at_ cs =>
      cases hrest with
      | nil => exact .nil at_ (cs ++ ds)
      | @cons _ e fs kept removed ds out' hstart hstop hrest =>
          have hkept : at_ + Text.bytes (cs ++ kept) = e.start := by
            rw [Text.bytes_append, ← Nat.add_assoc, ← hk, hstart]
          have hfirst := Splices.cons hkept hstop hrest
          simp only [List.append_assoc, List.nil_append] at hfirst ⊢
          exact hfirst
  | @cons at_ e es kept removed cs out hstart hstop _ ih =>
      have hplace : k = e.stop + Text.bytes cs := by
        rw [hk, Text.bytes_append, Text.bytes_append, ← hstop, ← hstart]
        omega
      have hfirst := Splices.cons hstart hstop (ih hplace)
      simp only [List.append_assoc, List.cons_append] at hfirst ⊢
      exact hfirst

/-- Insertions at the beginning of a text. -/
theorem applySorted_insertions {k : Nat} {es : List Edit} (hes : ∀ e ∈ es, e.insertsAt k = true)
    (fs : List Edit) (cs : List Char) :
    applySorted k (es ++ fs) cs = es.flatMap (·.text.toList) ++ applySorted k fs cs := by
  induction es with
  | nil => rfl
  | cons e es ih =>
      obtain ⟨he, hes⟩ := List.forall_mem_cons.1 hes
      simp only [insertsAt, Bool.and_eq_true, beq_iff_eq] at he
      have htake : takeBytes 0 cs = [] := by cases cs <;> rfl
      have hdrop : dropBytes 0 cs = cs := by cases cs <;> rfl
      rw [List.cons_append, applySorted, he.1, he.2, Nat.sub_self, htake, hdrop, ih hes,
        List.flatMap_cons, List.nil_append, List.append_assoc]

/-- No edit is across the place of an insertion. -/
theorem not_across {es : List Edit} (hbehind : es.Pairwise fun a b => a.stop ≤ b.start)
    {a : Edit} (ha : a ∈ es) (hpoint : a.stop = a.start) {e : Edit} (he : e ∈ es) :
    e.stop ≤ a.start ∨ a.start ≤ e.start := by
  obtain ⟨before, after, rfl⟩ := List.append_of_mem ha
  obtain ⟨-, hafter, hbefore⟩ := List.pairwise_append.1 hbehind
  rcases List.mem_append.1 he with he | he
  · exact .inl (hbefore e he a List.mem_cons_self)
  · rcases List.mem_cons.1 he with rfl | he
    · exact .inr (Nat.le_refl _)
    · exact .inr (hpoint ▸ (List.pairwise_cons.1 hafter).1 e he)

/-- Edits of which none is across a place: those up to it, the insertions at it and those
from it on. -/
theorem split_around {k : Nat} {es : List Edit} (hordered : ∀ e ∈ es, e.start ≤ e.stop)
    (hbehind : es.Pairwise fun a b => a.stop ≤ b.start)
    (hacross : ∀ e ∈ es, e.stop ≤ k ∨ k ≤ e.start) :
    es = es.filter (endsBy k) ++ (es.filter (insertsAt k) ++ es.filter (beginsFrom k)) := by
  have hends : es.Pairwise fun a b => endsBy k b = true → endsBy k a = true := by
    refine hbehind.imp_of_mem fun ha _ hab hb => ?_
    have hle := hordered _ ha
    simp only [endsBy, Bool.and_eq_true, decide_eq_true_eq] at hb ⊢
    omega
  have hinserts : (es.filter (! endsBy k ·)).Pairwise fun a b =>
      insertsAt k b = true → insertsAt k a = true := by
    refine (hbehind.filter _).imp_of_mem fun ha _ hab hb => ?_
    obtain ⟨ha, hnot⟩ := List.mem_filter.1 ha
    have hle := hordered _ ha
    simp only [endsBy, insertsAt, Bool.not_and, Bool.or_eq_true, Bool.not_eq_true',
      decide_eq_false_iff_not, Bool.and_eq_true, beq_iff_eq] at hnot hb ⊢
    omega
  have hmiddle : (es.filter (! endsBy k ·)).filter (insertsAt k) = es.filter (insertsAt k) := by
    rw [List.filter_filter]
    refine List.filter_congr fun e he => ?_
    simp only [endsBy, insertsAt]
    grind
  have hlast : (es.filter (! endsBy k ·)).filter (! insertsAt k ·) = es.filter (beginsFrom k) := by
    rw [List.filter_filter]
    refine List.filter_congr fun e he => ?_
    have hle := hordered e he
    have hplace := hacross e he
    simp only [endsBy, insertsAt, beginsFrom]
    grind
  rw [← hmiddle, ← hlast, filter_append_filter_not hinserts, filter_append_filter_not hends]

/-- Edits of which none is across a cut are carried out on both sides of it, with the insertions
at the cut in between. -/
theorem applySorted_around {es : List Edit} {text : List Char} (hstands : ∀ e ∈ es, e.StandsIn text)
    (hbehind : es.Pairwise fun a b => a.stop ≤ b.start) {k : Nat} (hk : Text.IsCut text k)
    (hacross : ∀ e ∈ es, e.stop ≤ k ∨ k ≤ e.start) :
    applySorted 0 es text =
      applySorted 0 (es.filter (endsBy k)) (takeBytes k text) ++
        (es.filter (insertsAt k)).flatMap (·.text.toList) ++
        applySorted k (es.filter (beginsFrom k)) (dropBytes k text) := by
  have hsplit := split_around (fun e he => (hstands e he).ordered) hbehind hacross
  have htext := Text.takeBytes_append_dropBytes k text
  have hfront : Text.bytes (takeBytes k text) = k := hk
  have hinserts : ∀ e ∈ es.filter (insertsAt k), e.insertsAt k = true := fun e he =>
    (List.mem_filter.1 he).2
  generalize takeBytes k text = front at htext hfront ⊢
  generalize dropBytes k text = back at htext ⊢
  subst htext
  have hends : Splices 0 (es.filter (endsBy k)) front
      (applySorted 0 (es.filter (endsBy k)) front) := by
    refine @splices_applySorted _ (hbehind.filter _) [] front (fun e he => ?_) fun _ _ =>
      Nat.zero_le _
    obtain ⟨he, hplace⟩ := List.mem_filter.1 he
    obtain ⟨hstart, hstop, hordered⟩ := hstands e he
    simp only [endsBy, Bool.and_eq_true, decide_eq_true_eq] at hplace
    exact ⟨hstart.ahead (by omega), hstop.ahead (by omega), hordered⟩
  have hbegins : Splices k (es.filter (insertsAt k) ++ es.filter (beginsFrom k)) back
      (applySorted k (es.filter (insertsAt k) ++ es.filter (beginsFrom k)) back) := by
    have hfrom : (es.filter (insertsAt k) ++ es.filter (beginsFrom k)).Sublist es := by
      conv_rhs => rw [hsplit]
      exact List.sublist_append_right _ _
    have h := @splices_applySorted _ (hbehind.sublist hfrom) front back
      (fun e he => hstands e (hfrom.subset he)) fun e he => ?_
    · rwa [hfront] at h
    · rw [hfront]
      rcases List.mem_append.1 he with he | he
      · have hplace := (List.mem_filter.1 he).2
        simp only [insertsAt, Bool.and_eq_true, beq_iff_eq] at hplace
        exact Nat.le_of_eq hplace.1.symm
      · have hplace := (List.mem_filter.1 he).2
        simp only [beginsFrom, Bool.and_eq_true, decide_eq_true_eq] at hplace
        exact hplace.1
  have hwhole := (hends.append hbegins (by rw [hfront, Nat.zero_add])).eq_applySorted
  rw [← hsplit, applySorted_insertions hinserts, ← List.append_assoc] at hwhole
  exact hwhole

/-! ## All edits of a text -/

theorem Reordering.sorted_eq {es fs : List Edit} (h : Reordering es fs) :
    sorted le fs = sorted le es := by
  refine sorted_eq_of_filter_same le_total le_trans fun a => ?_
  have hsame : same le a = fun e => e.start == a.start && e.stop == a.stop := by
    funext e
    rw [Bool.eq_iff_iff, same_iff]
    simp only [le, Bool.or_eq_true, Bool.and_eq_true, decide_eq_true_eq, beq_iff_eq]
    omega
  rw [hsame]
  exact h.order a.start a.stop

/-- Insertions at one place are in order as they are given. -/
theorem sorted_filter_insertsAt (k : Nat) (es : List Edit) :
    (sorted le es).filter (insertsAt k) = es.filter (insertsAt k) := by
  rw [← sorted_filter le_total le_trans]
  refine sorted_of_pairwise (List.pairwise_of_forall_mem_list fun a ha b hb => ?_)
  have ha := (List.mem_filter.1 ha).2
  have hb := (List.mem_filter.1 hb).2
  simp only [insertsAt, Bool.and_eq_true, beq_iff_eq] at ha hb
  simp only [le, Bool.or_eq_true, Bool.and_eq_true, decide_eq_true_eq, beq_iff_eq]
  omega

/-- Edits that are parts of a text between cuts, each behind the one before when they are in
order, are carried out. -/
theorem carriedOut_applyAll {s : String} {es : List Edit}
    (hstands : ∀ e ∈ es, e.StandsIn s.toList)
    (hbehind : (sorted le es).Pairwise fun a b => a.stop ≤ b.start) :
    CarriedOut s es (applyAll s es) := by
  have hperm := sorted_perm le es
  have hstands : ∀ e ∈ sorted le es, e.StandsIn s.toList := fun e he =>
    hstands e (hperm.mem_iff.1 he)
  have hsplices : Splices 0 (sorted le es) s.toList (applyAll s es).toList := by
    rw [applyAll, String.toList_ofList]
    exact @splices_applySorted _ hbehind [] _ hstands fun _ _ => Nat.zero_le _
  constructor
  case sequential =>
    have h := hsplices.foldrM_perform? (rfl : Text.bytes [] = 0)
    rwa [List.nil_append, List.nil_append, String.ofList_toList, String.ofList_toList] at h
  case reordered =>
    intro fs hfs
    rw [applyAll, applyAll, hfs.sorted_eq]
  case around =>
    intro a ha hpoint
    have ha := hperm.mem_iff.2 ha
    have hacross : ∀ e ∈ sorted le es, e.stop ≤ a.start ∨ a.start ≤ e.start := fun e he =>
      not_across hbehind ha hpoint he
    rw [applyAll, String.toList_ofList, sorted_filter le_total le_trans,
      sorted_filter le_total le_trans, ← sorted_filter_insertsAt a.start es]
    exact applySorted_around hstands hbehind (hstands a ha).start hacross
  case length =>
    rw [← Text.bytes_toList, ← Text.bytes_toList, hsplices.bytes, (hperm.map growth).sum_eq]

/-- Insertions at both ends of an edit that takes a character of two bytes away. -/
theorem carriedOut_applyAll_meeting :
    let es : List Edit :=
      [⟨4, 6, "xyz"⟩, ⟨6, 6, "1"⟩, ⟨4, 4, "<"⟩, ⟨0, 0, ">"⟩, ⟨6, 6, "2"⟩, ⟨1, 2, ""⟩]
    CarriedOut "abc \u00e9f" es ">ac <xyz12f" := by
  intro es
  have hstands : ∀ e ∈ es, e.StandsIn "abc \u00e9f".toList := by decide +kernel
  have hbehind : (sorted le es).Pairwise fun a b => a.stop ≤ b.start := by decide +kernel
  have hout : applyAll "abc \u00e9f" es = ">ac <xyz12f" := by decide +kernel
  have h := carriedOut_applyAll hstands hbehind
  rwa [hout] at h

end Edit

end SiteMacros
